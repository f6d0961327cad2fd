-- How a node starts from its data directory (`start`). A node with a validator set and an
-- address of its own joins a network, every other node makes three blocks and stops. A
-- validator that was set up alone waits for peers, and makes no block at all.
import Pemrix.ChainFinality
import Pemrix.HashChain
import Pemrix.NodeFiles
import Pemrix.Solo

open Std

namespace Pemrix

/-! ## The model -/

/-- What a node finds on its machine: the addresses where it can listen, and the store that
`open_state_store` opens for a data directory. -/
structure NodeHost (B : Type) where
  binds : SocketAddr → Bool
  open_state_store : String → Except NodeError (StateStore B)

/-- The build without RocksDB: the store is a new one. -/
def NodeHost.in_memory (binds : SocketAddr → Bool) : NodeHost InMemoryBackend :=
  ⟨binds, fun _ => .ok .new_in_memory⟩

/-- A validator after its start, at the first step of its loops. -/
structure RunningValidator (B : Type) where
  node : ValidatorNode B
  transport : TcpTransport
  listen_addr : SocketAddr
  rpc_listen : String
  rpc_state : RpcState

/-- What has started: a validator that goes on, or a solo node, with the blocks it made. -/
inductive Started (B : Type) where
  | validator (running : RunningValidator B)
  | solo (blocks : List Block)

/-- `init`, at some time. -/
def init [SocketAddrText] (files : Files) (data_dir : String) (validator : Bool) (now : UInt64) :
    Files :=
  let config := { NodeConfig.for_data_dir data_dir with validator }
  (GenesisConfig.local_development [] now).save (config.save files) data_dir

variable [Crates]

def local_id (address : Address) : PeerId :=
  .from_public_key_hash (Hash.hash_bytes address.as_bytes)

/-- The proposals of a solo node, each at its time. -/
def solo_blocks (now : UInt64 → UInt64) :
    List UInt64 → SoloConsensus → Except NodeError (List Block)
  | [], _ => .ok []
  | height :: heights, consensus =>
    match consensus.propose height [] (now height) with
    | (.error _, _) => .error .Consensus
    | (.ok block, consensus) => (solo_blocks now heights consensus).map (block :: ·)

def start_solo (genesis : GenesisConfig) (now : UInt64 → UInt64) :
    Except NodeError (List Block) :=
  match genesis.genesis_block with
  | .error e => .error (.Storage e)
  | .ok genesis_block =>
    let consensus := SoloConsensus.new_with_previous_hash genesis.proposer genesis_block.hash
    match start_up consensus.state genesis.allocations with
    | (.error e, _) => .error (.Storage e)
    | (.ok (), state) => solo_blocks now [1, 2, 3] { consensus with state }

variable [SocketAddrText] {B : Type} [StateBackend B]

/-- A validator up to its loops. The engine refuses an address that is not in the set with a
panic, and `start_bft` turns a panic of the task into an error. -/
def run_bft_validator (host : NodeHost B) (config : NodeConfig) (genesis : GenesisConfig) :
    Except NodeError (RunningValidator B) :=
  match config.validator_set with
  | none => .error (.Config (some "validator_set required for BFT validator"))
  | some validator_set =>
    match config.local_validator_address with
    | none => .error (.Config (some "local_validator_address required for BFT validator"))
    | some local_address =>
      match genesis.genesis_block with
      | .error e => .error (.Storage e)
      | .ok genesis_block =>
        match SocketAddrText.from_str config.p2p_listen with
        | none => .error (.Config (some "invalid p2p_listen address"))
        | some p2p_addr =>
          if ¬ host.binds p2p_addr then .error .Network
          else
            match host.open_state_store config.data_dir with
            | .error e => .error e
            | .ok state_store =>
              if ¬ validator_set.is_validator local_address then .error .Consensus
              else
                match start_up state_store genesis.allocations with
                | (.error e, _) => .error (.Storage e)
                | (.ok (), state) => .ok
                  { node := .new
                      (.new_with_store local_address validator_set state genesis_block.hash)
                    transport := .new (local_id local_address)
                      (config.bootstrap_nodes.map fun _ addr => addr.addr)
                    listen_addr := p2p_addr
                    rpc_listen := config.rpc_listen
                    rpc_state := genesis.allocations.toList.foldl
                      (fun state e => state.set_account e.1 e.2) RpcState.new }

/-- What a validator takes from its key file. -/
def with_key (config : NodeConfig) (files : Files) (data_dir : String) :
    Except NodeError NodeConfig := do
  let key_file ← ValidatorKeyFile.load files data_dir
  let local_address ← key_file.get_address
  return { config with
    local_validator_address := some local_address
    validator_set := config.validator_set.or (some (single_validator_set local_address)) }

def start (host : NodeHost B) (files : Files) (data_dir : String) (now : UInt64 → UInt64) :
    Except NodeError (Started B) := do
  let config ← NodeConfig.load files data_dir
  let genesis ← GenesisConfig.load files data_dir
  let config ← if config.validator then with_key config files data_dir else pure config
  if config.validator_set.isSome ∧ config.local_validator_address.isSome then
    (run_bft_validator host config genesis).map .validator
  else (start_solo genesis now).map .solo

/-- The validator mode stays in the configuration, also when the start fails. -/
def start_validator (host : NodeHost B) (files : Files) (data_dir : String)
    (now : UInt64 → UInt64) : Except NodeError (Started B) × Files :=
  match NodeConfig.load files data_dir with
  | .error e => (.error e, files)
  | .ok config =>
    let files := { config with validator := true }.save files
    (start host files data_dir now, files)

/-! ## What starts -/

omit [Crates] [SocketAddrText] in
theorem foldl_set_account (l : List (Address × Account)) (s : RpcState) :
    l.foldl (fun state e => state.set_account e.1 e.2) s =
      { s with accounts := l.foldl (fun m e => m.insert e.1 e.2) s.accounts } := by
  induction l generalizing s with
  | nil => rfl
  | cons e l ih => exact ih _

section Validator

variable (host : NodeHost B) {config : NodeConfig} {genesis : GenesisConfig}
  {validator_set : ValidatorSet} {local_address : Address} {p2p_addr : SocketAddr}
  {genesis_block : Block} (hset : config.validator_set = some validator_set)
  (hlocal : config.local_validator_address = some local_address)
  (haddr : SocketAddrText.from_str config.p2p_listen = some p2p_addr)
  (hblock : genesis.genesis_block = .ok genesis_block)

include hset hlocal haddr hblock

theorem run_bft_validator_no_network (hbinds : ¬ host.binds p2p_addr) :
    run_bft_validator host config genesis = .error .Network := by
  unfold run_bft_validator
  rw [hset, hlocal, hblock, haddr]
  dsimp only
  rw [if_pos hbinds]

theorem run_bft_validator_no_store (hbinds : host.binds p2p_addr) {e : NodeError}
    (hopen : host.open_state_store config.data_dir = .error e) :
    run_bft_validator host config genesis = .error e := by
  unfold run_bft_validator
  rw [hset, hlocal, hblock, haddr]
  dsimp only
  rw [if_neg (not_not_intro hbinds), hopen]

/-- A validator in the set starts on the store of its data directory, with the genesis allocations
written to it. -/
theorem run_bft_validator_ok (hmember : validator_set.is_validator local_address)
    (hbinds : host.binds p2p_addr) {state_store state : StateStore B}
    (hopen : host.open_state_store config.data_dir = .ok state_store)
    (hseed : start_up state_store genesis.allocations = (.ok (), state)) :
    run_bft_validator host config genesis = .ok
      { node := .new (.new_with_store local_address validator_set state genesis_block.hash)
        transport := .new (local_id local_address)
          (config.bootstrap_nodes.map fun _ addr => addr.addr)
        listen_addr := p2p_addr
        rpc_listen := config.rpc_listen
        rpc_state := .from_genesis genesis.allocations } := by
  unfold run_bft_validator
  rw [hset, hlocal, hblock, haddr]
  dsimp only
  rw [if_neg (not_not_intro hbinds), hopen]
  dsimp only
  rw [if_neg (not_not_intro hmember), hseed, foldl_set_account,
    show RpcState.new.accounts = ∅ from rfl, ExtTreeMap.foldl_insert_toList]
  rfl

end Validator

omit [SocketAddrText] in
theorem propose_nothing (c : SoloConsensus) (height now : UInt64) :
    ∃ block, c.propose height [] now = (.ok block,
        { c with previous_hash := block.hash, height }) ∧
      block.header.height = height ∧ block.header.previous_hash = c.previous_hash ∧
      block.body.transactions = [] :=
  ⟨_, rfl, rfl, rfl, rfl⟩

omit [SocketAddrText] in
/-- A solo node makes an empty block for every height, and each names the one before it. -/
theorem solo_blocks_ok (now : UInt64 → UInt64) (heights : List UInt64) (c : SoloConsensus) :
    ∃ blocks, solo_blocks now heights c = .ok blocks ∧
      blocks.map (fun b => b.header.height) = heights ∧
      (∀ b ∈ blocks, b.body.transactions = []) ∧
      HashChain.Linked Block.hash (fun b => b.header.previous_hash) c.previous_hash blocks := by
  induction heights generalizing c with
  | nil => exact ⟨[], rfl, rfl, by simp, trivial⟩
  | cons height heights ih =>
    obtain ⟨block, hpropose, hheight, hprevious, hempty⟩ := propose_nothing c height (now height)
    obtain ⟨blocks, hblocks, hheights, hempties, hlinked⟩ :=
      ih { c with previous_hash := block.hash, height }
    refine ⟨block :: blocks, ?_, ?_, ?_, hprevious, hlinked⟩
    · unfold solo_blocks
      rw [hpropose]
      dsimp only
      rw [hblocks]
      rfl
    · rw [List.map_cons, hheight, hheights]
    · rw [List.forall_mem_cons]
      exact ⟨hempty, hempties⟩

omit [SocketAddrText] in
theorem start_solo_ok (genesis : GenesisConfig) (now : UInt64 → UInt64) :
    ∃ genesis_block blocks, genesis.genesis_block = .ok genesis_block ∧
      start_solo genesis now = .ok blocks ∧
      blocks.map (fun b => b.header.height) = [1, 2, 3] ∧
      (∀ b ∈ blocks, b.body.transactions = []) ∧
      HashChain.Linked Block.hash (fun b => b.header.previous_hash) genesis_block.hash blocks := by
  obtain ⟨root, -, hblock⟩ := genesis.genesis_block_ok
  obtain ⟨blocks, hblocks, hrest⟩ := solo_blocks_ok now [1, 2, 3]
    (.with_allocations genesis.proposer _ genesis.allocations)
  refine ⟨_, blocks, hblock, ?_, hrest⟩
  unfold start_solo
  rw [hblock]
  dsimp only
  rw [show (SoloConsensus.new_with_previous_hash genesis.proposer _).state =
    StateStore.new_in_memory from rfl, start_up_in_memory]
  exact hblocks

/-- A node in validator mode starts as the validator of its key file. -/
theorem start_with_key (host : NodeHost B) {files : Files} {data_dir : String}
    {config : NodeConfig} {genesis : GenesisConfig} {key_file : ValidatorKeyFile}
    {address : Address} (hconfig : NodeConfig.load files data_dir = .ok config)
    (hvalidator : config.validator = true)
    (hgenesis : GenesisConfig.load files data_dir = .ok genesis)
    (hkey : ValidatorKeyFile.load files data_dir = .ok key_file)
    (haddress : key_file.get_address = .ok address) (now : UInt64 → UInt64) :
    start host files data_dir now =
      (run_bft_validator host { config with
        local_validator_address := some address
        validator_set := config.validator_set.or (some (single_validator_set address)) }
        genesis).map .validator := by
  have hset : (config.validator_set.or (some (single_validator_set address))).isSome := by
    cases config.validator_set <;> rfl
  unfold start with_key
  simp only [hconfig, hgenesis, hvalidator, hkey, haddress, Except.bind, bind, pure, Except.pure,
    if_true, hset, Option.isSome_some, and_self]

/-- A node in validator mode does not start without a genesis or without a key file. -/
theorem start_without (host : NodeHost B) {files : Files} {data_dir : String}
    {config : NodeConfig} (hconfig : NodeConfig.load files data_dir = .ok config)
    (hvalidator : config.validator = true) (now : UInt64 → UInt64)
    (h : files.read (GenesisConfig.path data_dir) = none ∨
      (∃ genesis, GenesisConfig.load files data_dir = .ok genesis) ∧
        files.read (ValidatorKeyFile.path data_dir) = none) :
    start host files data_dir now = .error .Io := by
  unfold start with_key
  rcases h with hgenesis | ⟨⟨genesis, hgenesis⟩, hkey⟩
  · have hload : GenesisConfig.load files data_dir = .error .Io := by
      unfold GenesisConfig.load
      rw [hgenesis]
    simp only [hconfig, hload, Except.bind, bind]
  · have hload : ValidatorKeyFile.load files data_dir = .error .Io := by
      unfold ValidatorKeyFile.load
      rw [hkey]
    simp only [hconfig, hgenesis, hvalidator, hload, Except.bind, bind, if_true]

/-! ## A node that was just set up -/

section Init

variable (files : Files) (data_dir : String) (validator : Bool) (now : UInt64)

omit [Crates] in
theorem load_config_init : NodeConfig.load (init files data_dir validator now) data_dir =
    .ok { NodeConfig.for_data_dir data_dir with validator } :=
  NodeConfig.load_of_read ((Files.read_write_of_ne
    (FilePath.new_join_ne _ _ node_file genesis_file (by decide)) _).trans (Files.read_write _))

omit [Crates] in
theorem load_genesis_init : GenesisConfig.load (init files data_dir validator now) data_dir =
    .ok (.local_development [] now) :=
  GenesisConfig.load_of_read (Files.read_write _)

/-- The key file is beside the other two. -/
theorem load_with_key (keypair : KeyPair) :
    let saved := (ValidatorKeyFile.generate_and_save keypair files data_dir).2
    NodeConfig.load saved data_dir = NodeConfig.load files data_dir ∧
      GenesisConfig.load saved data_dir = GenesisConfig.load files data_dir ∧
      ValidatorKeyFile.load saved data_dir = .ok (.from_keypair keypair) := by
  intro saved
  have hnode : saved.read (NodeConfig.path data_dir) = files.read (NodeConfig.path data_dir) :=
    Files.read_write_of_ne (FilePath.new_join_ne _ _ node_file key_file (by decide)) _
  have hgenesis : saved.read (GenesisConfig.path data_dir) =
      files.read (GenesisConfig.path data_dir) :=
    Files.read_write_of_ne (FilePath.new_join_ne _ _ genesis_file key_file (by decide)) _
  refine ⟨?_, ?_, ValidatorKeyFile.load_of_read (Files.read_write _)⟩
  · unfold NodeConfig.load
    rw [hnode]
  · unfold GenesisConfig.load
    rw [hgenesis]

end Init

/-- A node that is started in validator mode without a key fails, and it fails from then on, in
whatever mode it is started. -/
theorem start_validator_without_key (host : NodeHost B) {files : Files} {data_dir : String}
    {config : NodeConfig} {genesis : GenesisConfig}
    (hconfig : NodeConfig.load files data_dir = .ok config) (hown : config.data_dir = data_dir)
    (hgenesis : GenesisConfig.load files data_dir = .ok genesis)
    (hkey : files.read (ValidatorKeyFile.path data_dir) = none) (now : UInt64 → UInt64) :
    (start_validator host files data_dir now).1 = .error .Io ∧
      start host (start_validator host files data_dir now).2 data_dir now = .error .Io := by
  subst hown
  let saved := { config with validator := true }.save files
  have hread : saved.read (GenesisConfig.path config.data_dir) =
      files.read (GenesisConfig.path config.data_dir) :=
    Files.read_write_of_ne (FilePath.new_join_ne _ _ genesis_file node_file (by decide)) _
  have hsaved : GenesisConfig.load saved config.data_dir = .ok genesis := by
    unfold GenesisConfig.load at hgenesis ⊢
    rw [hread]
    exact hgenesis
  have hnokey : saved.read (ValidatorKeyFile.path config.data_dir) = none :=
    (Files.read_write_of_ne (FilePath.new_join_ne _ _ key_file node_file (by decide)) _).trans hkey
  have hfails : start host saved config.data_dir now = .error .Io :=
    start_without host (NodeConfig.load_of_read (Files.read_write _)) rfl now
      (Or.inr ⟨⟨genesis, hsaved⟩, hnokey⟩)
  unfold start_validator
  rw [hconfig]
  exact ⟨hfails, hfails⟩

/-! ## A validator on its own -/

namespace Cluster

variable [VoteFormat]

omit [SocketAddrText] in
/-- It has no peers, so it never proposes. -/
theorem run_alone (address : Address) (allocations : ExtTreeMap Address Account)
    (genesis_hash : Hash) (steps : List ClusterStep) :
    run 1 (.start [address] allocations genesis_hash) steps =
      .start [address] allocations genesis_hash := by
  have hstep : ∀ s, step 1 (.start [address] allocations genesis_hash) s =
      .start [address] allocations genesis_hash := by
    intro s
    cases s with
    | produce i now =>
      unfold step
      dsimp only
      split
      · rename_i hi
        cases Nat.lt_one_iff.mp hi
        have hproduce : ((start [address] allocations genesis_hash).node 0).produce
            (peer_count 1 0) now = ([], (start [address] allocations genesis_hash).node 0) := rfl
        rw [hproduce]
        dsimp only
        rw [broadcast_nil, set_node_same]
      · rfl
    | deliver i j now =>
      unfold step
      dsimp only
      rw [if_neg]
      rintro ⟨hlink, -⟩
      obtain ⟨hi, hj, hnext⟩ := connected_iff.mp hlink
      omega
    | react i now =>
      unfold step
      dsimp only
      split
      · have hreact : ((start [address] allocations genesis_hash).node i).react now =
            ([], (start [address] allocations genesis_hash).node i) := rfl
        rw [hreact]
        dsimp only
        rw [broadcast_nil, set_node_same]
      · rfl
  induction steps with
  | nil => rfl
  | cons s steps ih =>
    rw [run, List.foldl_cons, hstep]
    exact ih

end Cluster

variable [VoteFormat]

end Pemrix

namespace Pemrix.Concrete

def no_files : Files := ⟨fun _ => none⟩

end Pemrix.Concrete
