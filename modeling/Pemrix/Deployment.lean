-- Setting up a network (`bootstrap-network`), from the key files of its validators to the
-- nodes that run. The bootstrap writes a directory for each validator and the genesis
-- beside them; a host needs the genesis and a key file too. The key says which validator
-- a node is, the directory where it listens and whom it dials.
import Pemrix.Exits
import Pemrix.NodeStart

open Std

namespace Pemrix

/-! ## The model -/

structure BootstrapValidator where
  address : Address
  p2p : String
  name : Option String

/-- A validator of the manifest: the path of its key file, and its endpoint. -/
def manifest_entry (files : Files) (entry : String × String) :
    Except NodeError BootstrapValidator :=
  match files.read entry.1 with
  | none => .error (.Config none)
  | some contents =>
    match parse_file Forms.validator_key_file contents with
    | .error e => .error e
    | .ok key_file => key_file.get_address.map fun address => ⟨address, entry.2, none⟩

def manifest_from_key_files (files : Files) (entries : List (String × String)) :
    Except NodeError (List BootstrapValidator) := entries.mapM (manifest_entry files)

/-- Every validator has an account, if only a small one. -/
def bootstrap_genesis (chain_id : String) (validators : List BootstrapValidator)
    (allocations : List (Address × Balance)) (now : UInt64) : GenesisConfig where
  chain_id := chain_id
  timestamp := now
  allocations :=
    validators.foldl (fun m v => m.insertIfNew v.address ⟨1000000, 0⟩)
      (allocations.foldl (fun m a => m.insert a.1 ⟨a.2, 0⟩) ∅)
  validators := validators.map BootstrapValidator.address

def validator_dir (output_dir : String) (i : Nat) : String :=
  FilePath.join output_dir ("validator-" ++ toString i)

variable [SocketAddrText]

def p2p_entry (v : BootstrapValidator) : Except NodeError (Address × ParsedAddr) :=
  match ParsedAddr.from_str v.p2p with
  | none => .error (.Config (some ("invalid p2p address: " ++ v.p2p)))
  | some addr => .ok (v.address, addr)

/-- Of two entries with one address the later one counts. -/
def p2p_addrs (validators : List BootstrapValidator) :
    Except NodeError (ExtTreeMap Address ParsedAddr) :=
  (validators.mapM p2p_entry).map (·.foldl (fun m e => m.insert e.1 e.2) ∅)

variable [Crates]

/-- The configuration of validator `i`. It dials the validator before it in the list. -/
def bootstrap_config (validators : List BootstrapValidator)
    (p2p_addrs : ExtTreeMap Address ParsedAddr) (output_dir : String) (i : Nat)
    (v : BootstrapValidator) : NodeConfig where
  data_dir := validator_dir output_dir i
  rpc_listen := "0.0.0.0:61001"
  p2p_listen := v.p2p
  validator := true
  bootstrap_nodes :=
    match i with
    | 0 => ∅
    | j + 1 =>
      match validators[j]? with
      | none => ∅
      | some peer =>
        -- every address of the list has an entry, so the index of the source is never missing
        match p2p_addrs[peer.address]? with
        | none => ∅
        | some addr => (∅ : ExtTreeMap PeerId ParsedAddr).insert (local_id peer.address) addr
  validator_set := some (.from_validators (validators.map fun v => ⟨v.address, 1⟩))
  local_validator_address := some v.address

def bootstrap_bft_network (files : Files) (chain_id : String) (validators : List BootstrapValidator)
    (allocations : List (Address × Balance)) (output_dir : String) (now : UInt64) :
    Except NodeError Unit × Files :=
  if validators.length < 2 then
    (.error (.Config (some "BFT network requires at least 2 validators")), files)
  else
    let genesis := bootstrap_genesis chain_id validators allocations now
    let files := genesis.save files output_dir
    match p2p_addrs validators with
    | .error e => (.error e, files)
    | .ok p2p_addrs =>
      (.ok (), validators.zipIdx.foldl
        (fun files v => (bootstrap_config validators p2p_addrs output_dir v.2 v.1).save files)
        files)

/-! ## The network that is set up -/

omit [SocketAddrText] in
/-- The peers that the validator of a place dials, with the addresses where they listen. -/
def dialed (validators : List Address) (listen : Nat → SocketAddr) (place : Nat) :
    ExtTreeMap PeerId SocketAddr :=
  (bootstrap_nodes place).foldl
    (fun m j => m.insert (local_id (Cluster.address validators j)) (listen j)) ∅

omit [SocketAddrText] in
/-- The node of the validator `holder`, run at some place of the network on some store. -/
def deployed {B : Type} [StateBackend B] (validators : List Address)
    (allocations : ExtTreeMap Address Account) (genesis_hash : Hash) (listen : Nat → SocketAddr)
    (place holder : Nat) (state : StateStore B) : RunningValidator B where
  node := .new (.new_with_store (Cluster.address validators holder) (equal_set validators) state
    genesis_hash)
  transport := .new (local_id (Cluster.address validators holder)) (dialed validators listen place)
  listen_addr := listen place
  rpc_listen := "0.0.0.0:61001"
  rpc_state := .from_genesis allocations

/-! ## What the bootstrap reads -/

omit [SocketAddrText] [Crates] in
/-- What a manifest says of an entry, its key file says. -/
theorem manifest_entry_ok {files : Files} {entry : String × String} {v : BootstrapValidator}
    (h : manifest_entry files entry = .ok v) : v.p2p = entry.2 ∧
      ∃ contents key_file, files.read entry.1 = some contents ∧
        parse_file Forms.validator_key_file contents = .ok key_file ∧
        key_file.get_address = .ok v.address := by
  unfold manifest_entry at h
  split at h
  · cases h
  · rename_i contents hcontents
    split at h
    · cases h
    · rename_i key_file hkey
      cases haddress : key_file.get_address with
      | error e =>
        rw [haddress] at h
        cases h
      | ok address =>
        rw [haddress] at h
        cases h
        exact ⟨rfl, contents, key_file, hcontents, hkey, haddress⟩

omit [SocketAddrText] in
/-- The entry of a key pair has the address of its public key. -/
theorem manifest_entry_of_keypair {files : Files} {path : String} {keypair : KeyPair}
    (h : files.read path =
      some (Forms.validator_key_file.to_string_pretty (.from_keypair keypair))) (p2p : String) :
    manifest_entry files (path, p2p) =
      .ok ⟨.from_public_key_hash (Hash.hash_bytes keypair.public_key.bytes), p2p, none⟩ := by
  unfold manifest_entry
  dsimp only
  rw [h]
  dsimp only
  rw [parse_file_pretty]
  dsimp only
  rw [ValidatorKeyFile.get_address_from_keypair]
  rfl

omit [Crates] in
theorem p2p_entry_ok {v : BootstrapValidator} {addr : SocketAddr}
    (h : SocketAddrText.from_str v.p2p = some addr) :
    ∃ p : ParsedAddr, p2p_entry v = .ok (v.address, p) ∧ p.addr = addr := by
  obtain ⟨p, hp, haddr⟩ := ParsedAddr.from_str_of h
  refine ⟨p, ?_, haddr⟩
  unfold p2p_entry
  rw [hp]

omit [Crates] in
theorem p2p_entry_ok_iff (v : BootstrapValidator) :
    (∃ e, p2p_entry v = .ok e) ↔ (SocketAddrText.from_str v.p2p).isSome := by
  constructor
  · rintro ⟨e, he⟩
    cases haddr : SocketAddrText.from_str v.p2p with
    | some addr => rfl
    | none =>
      unfold p2p_entry ParsedAddr.from_str at he
      split at he
      · cases he
      · rename_i p hp
        split at hp
        · cases hp
        · rename_i addr hsome
          rw [haddr] at hsome
          cases hsome
  · intro h
    obtain ⟨addr, haddr⟩ := Option.isSome_iff_exists.mp h
    obtain ⟨p, hp, -⟩ := p2p_entry_ok haddr
    exact ⟨_, hp⟩

omit [Crates] in
theorem p2p_entry_address {v : BootstrapValidator} {e : Address × ParsedAddr}
    (h : p2p_entry v = .ok e) : v.address = e.1 := by
  unfold p2p_entry at h
  split at h
  · cases h
  · cases h
    rfl

omit [Crates] in
theorem p2p_addrs_ok_iff (validators : List BootstrapValidator) :
    (∃ addrs, p2p_addrs validators = .ok addrs) ↔
      ∀ v ∈ validators, (SocketAddrText.from_str v.p2p).isSome := by
  unfold p2p_addrs
  constructor
  · rintro ⟨addrs, h⟩ v hv
    cases htable : validators.mapM p2p_entry with
    | error e =>
      rw [htable] at h
      cases h
    | ok table =>
      obtain ⟨i, hi⟩ := List.getElem?_of_mem hv
      obtain ⟨e, -, he⟩ := Exits.getElem?_of_mapM_ok htable hi
      exact (p2p_entry_ok_iff v).mp ⟨e, he⟩
  · intro h
    obtain ⟨table, htable⟩ := Exits.exists_mapM_ok fun v hv => (p2p_entry_ok_iff v).mpr (h v hv)
    rw [htable]
    exact ⟨_, rfl⟩

omit [Crates] in
/-- Every validator is found in the table under its address, if no other one has it too. -/
theorem p2p_addrs_ok {validators : List BootstrapValidator} {listen : Nat → SocketAddr}
    (hlisten : ∀ i v, validators[i]? = some v → SocketAddrText.from_str v.p2p = some (listen i))
    (hdistinct : (validators.map BootstrapValidator.address).Nodup) :
    ∃ addrs, p2p_addrs validators = .ok addrs ∧ ∀ i v, validators[i]? = some v →
      ∃ p : ParsedAddr, addrs[v.address]? = some p ∧ p.addr = listen i := by
  have hall : ∀ v ∈ validators, ∃ e, p2p_entry v = .ok e := by
    intro v hv
    obtain ⟨i, hi⟩ := List.getElem?_of_mem hv
    obtain ⟨p, hp, -⟩ := p2p_entry_ok (hlisten i v hi)
    exact ⟨_, hp⟩
  obtain ⟨table, htable⟩ := Exits.exists_mapM_ok hall
  have hkeys : validators.map BootstrapValidator.address = table.map Prod.fst := by
    rw [← List.forall₂_eq_eq_eq, List.forall₂_map_left_iff, List.forall₂_map_right_iff]
    exact (Exits.mapM_ok_iff.mp htable).imp fun v e => p2p_entry_address
  have hdist : table.Pairwise fun e e' => e.1 ≠ e'.1 := by
    rw [hkeys] at hdistinct
    exact List.pairwise_map.mp hdistinct
  refine ⟨_, by unfold p2p_addrs; rw [htable]; rfl, ?_⟩
  intro i v hv
  obtain ⟨e, he, hentry⟩ := Exits.getElem?_of_mapM_ok htable hv
  obtain ⟨p, hp, haddr⟩ := p2p_entry_ok (hlisten i v hv)
  rw [hp] at hentry
  cases hentry
  refine ⟨p, ?_, haddr⟩
  rw [ExtTreeMap.getElem?_foldl_insert Prod.fst Prod.snd hdist]
  exact Or.inl ⟨_, List.mem_of_getElem? he, rfl, rfl⟩

/-! ## What the bootstrap writes -/

omit [SocketAddrText] [Crates] in
theorem toList_validator_name (i : Nat) :
    ("validator-" ++ toString i).toList = "validator-".toList ++ Nat.toDigits 10 i := by
  have hdigits : (toString i).toList = Nat.toDigits 10 i := by
    rw [Nat.toString_eq_ofList_toDigits, String.toList_ofList]
  rw [String.toList_append, hdigits]

omit [SocketAddrText] [Crates] in
theorem validator_name (i : Nat) : IsFileName ("validator-" ++ toString i) := by
  refine ⟨?_, ?_, ?_⟩
  · rw [toList_validator_name, List.mem_append]
    rintro (h | h)
    · exact absurd h (by decide)
    · exact absurd (Nat.isDigit_of_mem_toDigits (by decide) (by decide) h) (by decide)
  · rw [toList_validator_name]
    exact List.cons_ne_nil _ _
  · rw [toList_validator_name]
    intro h
    cases h

omit [SocketAddrText] [Crates] in
theorem validator_name_inj {i j : Nat}
    (h : "validator-" ++ toString i = "validator-" ++ toString j) : i = j := by
  have hlist := congrArg String.toList h
  rw [toList_validator_name, toList_validator_name] at hlist
  have hdigits := congrArg (fun l => Nat.ofDigitChars 10 l 0) (List.append_cancel_left hlist)
  rwa [Nat.ofDigitChars_ten_toDigits, Nat.ofDigitChars_ten_toDigits] at hdigits

omit [SocketAddrText] [Crates] in
/-- The configurations of two places are two files. -/
theorem config_path_ne [SocketAddrText] (output_dir : String) {i j : Nat} (h : i ≠ j) :
    FilePath.new (NodeConfig.path (validator_dir output_dir i)) ≠
      FilePath.new (NodeConfig.path (validator_dir output_dir j)) := by
  unfold NodeConfig.path validator_dir
  rw [FilePath.new_join _ node_file, FilePath.new_join _ (validator_name i),
    FilePath.new_join _ node_file, FilePath.new_join _ (validator_name j)]
  exact fun heq => h (validator_name_inj (FilePath.child_inj.mp (FilePath.child_inj.mp heq).1).2)

theorem bootstrap_bft_network_ok (files : Files) (chain_id : String)
    {validators : List BootstrapValidator} (allocations : List (Address × Balance))
    (output_dir : String) (now : UInt64) {addrs : ExtTreeMap Address ParsedAddr}
    (hsize : 2 ≤ validators.length) (haddrs : p2p_addrs validators = .ok addrs) :
    let (result, network) :=
      bootstrap_bft_network files chain_id validators allocations output_dir now
    result = .ok () ∧
      network.read (GenesisConfig.path output_dir) = some (Forms.genesis_config.to_string_pretty
        (bootstrap_genesis chain_id validators allocations now)) ∧
      ∀ i v, validators[i]? = some v →
        network.read (NodeConfig.path (validator_dir output_dir i)) =
          some (Forms.node_config.to_string_pretty
            (bootstrap_config validators addrs output_dir i v)) := by
  let path (v : BootstrapValidator × Nat) := NodeConfig.path (validator_dir output_dir v.2)
  let text (v : BootstrapValidator × Nat) := Forms.node_config.to_string_pretty
    (bootstrap_config validators addrs output_dir v.2 v.1)
  let genesis := bootstrap_genesis chain_id validators allocations now
  have hnetwork : bootstrap_bft_network files chain_id validators allocations output_dir now =
      (.ok (), (genesis.save files output_dir).write_all path text validators.zipIdx) := by
    unfold bootstrap_bft_network
    rw [if_neg (Nat.not_lt.mpr hsize)]
    dsimp only
    rw [haddrs]
    rfl
  have hdist : validators.zipIdx.Pairwise fun v w =>
      FilePath.new (path v) ≠ FilePath.new (path w) :=
    (List.pairwise_map.mp (List.nodup_zipIdx_map_snd validators)).imp
      fun hne => config_path_ne output_dir hne
  have hgenesis : ∀ v ∈ validators.zipIdx,
      FilePath.new (GenesisConfig.path output_dir) ≠ FilePath.new (path v) :=
    fun v _ => FilePath.new_join_ne _ _ genesis_file node_file (by decide)
  rw [hnetwork]
  refine ⟨rfl, (Files.read_write_all_of_ne hgenesis text).trans (Files.read_write _), ?_⟩
  intro i v hv
  have hmem : (v, i) ∈ validators.zipIdx := List.mk_mem_zipIdx_iff_getElem?.mpr hv
  exact (Files.read_write_all hdist text hmem :)

/-- The bootstrap refuses a single validator before it writes anything, and an endpoint that is no
address after it wrote the genesis only. -/
theorem bootstrap_bft_network_iff (files : Files) (chain_id : String)
    (validators : List BootstrapValidator) (allocations : List (Address × Balance))
    (output_dir : String) (now : UInt64) :
    let (result, network) :=
      bootstrap_bft_network files chain_id validators allocations output_dir now
    (result = .ok () ↔ 2 ≤ validators.length ∧
      ∀ v ∈ validators, (SocketAddrText.from_str v.p2p).isSome) ∧
    (result ≠ .ok () → network = if 2 ≤ validators.length then
        (bootstrap_genesis chain_id validators allocations now).save files output_dir
      else files) := by
  unfold bootstrap_bft_network
  by_cases hsize : 2 ≤ validators.length
  · rw [if_neg (Nat.not_lt.mpr hsize)]
    dsimp only
    cases haddrs : p2p_addrs validators with
    | error e =>
      have hrefused : ¬ ∀ v ∈ validators, (SocketAddrText.from_str v.p2p).isSome := by
        intro h
        obtain ⟨addrs, hok⟩ := (p2p_addrs_ok_iff validators).mpr h
        rw [haddrs] at hok
        cases hok
      rw [if_pos hsize]
      refine ⟨⟨?_, fun h => absurd h.2 hrefused⟩, fun _ => rfl⟩
      intro h
      cases h
    | ok addrs =>
      exact ⟨⟨fun _ => ⟨hsize, (p2p_addrs_ok_iff validators).mp ⟨addrs, haddrs⟩⟩, fun _ => rfl⟩,
        fun h => absurd rfl h⟩
  · rw [if_pos (Nat.lt_of_not_le hsize)]
    dsimp only
    rw [if_neg hsize]
    refine ⟨⟨?_, fun h => absurd h.1 hsize⟩, fun _ => rfl⟩
    intro h
    cases h

/-! ## From the files to the nodes -/

section Hosts

variable {validators : List BootstrapValidator} {listen : Nat → SocketAddr}
  {addrs : ExtTreeMap Address ParsedAddr}

omit [SocketAddrText] [Crates] in
theorem address_of_getElem? {i : Nat} {v : BootstrapValidator} (h : validators[i]? = some v) :
    Cluster.address (validators.map BootstrapValidator.address) i = v.address := by
  unfold Cluster.address
  rw [List.getD_eq_getElem?_getD, List.getElem?_map, h]
  rfl

/-- Whom the validator of a place dials. -/
theorem bootstrap_config_dialed (haddrs : ∀ i v, validators[i]? = some v →
      ∃ p : ParsedAddr, addrs[v.address]? = some p ∧ p.addr = listen i)
    (output_dir : String) {place : Nat} {v : BootstrapValidator}
    (hv : validators[place]? = some v) :
    ((bootstrap_config validators addrs output_dir place v).bootstrap_nodes.map
        fun _ addr => addr.addr) =
      dialed (validators.map BootstrapValidator.address) listen place := by
  cases place with
  | zero =>
    apply ExtTreeMap.ext_getElem?
    intro id
    simp [bootstrap_config, dialed, bootstrap_nodes]
  | succ j =>
    obtain ⟨hlt, -⟩ := List.getElem?_eq_some_iff.mp hv
    obtain ⟨peer, hpeer⟩ : ∃ peer, validators[j]? = some peer :=
      ⟨_, List.getElem?_eq_getElem (Nat.lt_of_succ_lt hlt)⟩
    obtain ⟨p, hp, haddr⟩ := haddrs j _ hpeer
    have haddress := address_of_getElem? hpeer
    apply ExtTreeMap.ext_getElem?
    intro id
    simp only [bootstrap_config, hpeer, hp, dialed, bootstrap_nodes, Nat.succ_pos, if_true,
      Nat.succ_sub_one, List.foldl_cons, List.foldl_nil, ExtTreeMap.getElem?_map,
      ExtTreeMap.getElem?_insert, haddress]
    split
    · rw [Option.map_some, haddr]
    · simp

/-- A host with the directory of a place, the genesis and a key file of the network. -/
theorem start_deployed {B : Type} [StateBackend B] (machine : NodeHost B) (chain_id : String)
    (allocations : List (Address × Balance)) (output_dir : String) (time : UInt64)
    {place holder : Nat} {v w : BootstrapValidator}
    (haddrs : ∀ i v, validators[i]? = some v →
      ∃ p : ParsedAddr, addrs[v.address]? = some p ∧ p.addr = listen i)
    (hv : validators[place]? = some v) (hw : validators[holder]? = some w)
    (hlisten : SocketAddrText.from_str v.p2p = some (listen place))
    {genesis_block : Block} (hblock : (bootstrap_genesis chain_id validators allocations
      time).genesis_block = .ok genesis_block)
    {host : Files} {home : String} {key_file : ValidatorKeyFile}
    (hconfig : NodeConfig.load host home =
      .ok (bootstrap_config validators addrs output_dir place v))
    (hgenesis : GenesisConfig.load host home =
      .ok (bootstrap_genesis chain_id validators allocations time))
    (hkey : ValidatorKeyFile.load host home = .ok key_file)
    (haddress : key_file.get_address = .ok w.address) (now : UInt64 → UInt64) :
    let allocations := (bootstrap_genesis chain_id validators allocations time).allocations
    (¬ machine.binds (listen place) → start machine host home now = .error .Network) ∧
    (machine.binds (listen place) →
      (∀ e, machine.open_state_store (validator_dir output_dir place) = .error e →
        start machine host home now = .error e) ∧
      ∀ store state, machine.open_state_store (validator_dir output_dir place) = .ok store →
        start_up store allocations = (.ok (), state) →
        start machine host home now = .ok (.validator (deployed
          (validators.map BootstrapValidator.address) allocations genesis_block.hash listen place
          holder state))) := by
  have hset : ValidatorSet.from_validators (validators.map fun v => ⟨v.address, 1⟩) =
      equal_set (validators.map BootstrapValidator.address) := by
    unfold equal_set
    rw [List.map_map]
    rfl
  have hmember : (equal_set (validators.map BootstrapValidator.address)).is_validator w.address :=
    ExtTreeMap.contains_iff_mem.mpr (mem_equal_set.mpr
      (List.mem_map_of_mem (List.mem_of_getElem? hw)))
  intro allocations
  rw [start_with_key machine hconfig rfl hgenesis hkey haddress]
  refine ⟨fun hbinds => ?_, fun hbinds => ⟨fun e hopen => ?_, fun store state hopen hseed => ?_⟩⟩
  · rw [run_bft_validator_no_network machine (congrArg some hset) rfl hlisten hblock hbinds]
    rfl
  · rw [run_bft_validator_no_store machine (congrArg some hset) rfl hlisten hblock hbinds hopen]
    rfl
  · rw [run_bft_validator_ok machine (congrArg some hset) rfl hlisten hblock hmember hbinds hopen
      hseed]
    dsimp only
    rw [bootstrap_config_dialed haddrs output_dir hv, ← address_of_getElem? hw]
    rfl

end Hosts

end Pemrix

namespace Pemrix.Concrete

/-- A key pair with some public key. -/
def pair (n : UInt8) : KeyPair := ⟨⟨[n]⟩, ⟨[]⟩⟩

def pair_address (n : UInt8) : Address := .from_public_key_hash (Hash.hash_bytes [n])

/-- The key files, as they were collected. -/
def collected : Files :=
  let text (n : UInt8) := Forms.validator_key_file.to_string_pretty (.from_keypair (pair n))
  (no_files.write "a.json" (text 1)).write "b.json" (text 2)

def entries : List (String × String) :=
  [("a.json", "10.0.0.1:61100"), ("b.json", "10.0.0.2:61100")]

def manifest : List BootstrapValidator :=
  [⟨pair_address 1, "10.0.0.1:61100", none⟩, ⟨pair_address 2, "10.0.0.2:61100", none⟩]

def listen (i : Nat) : SocketAddr := ⟨if i = 0 then "10.0.0.1" else "10.0.0.2", 61100⟩

def network : Files := (bootstrap_bft_network collected "pemrix-bft" manifest [] "net" 1700000000).2

/-- The second host, first with its directory only, then with all it needs. -/
def unpacked : Files :=
  no_files.copy (NodeConfig.path "home") network (NodeConfig.path (validator_dir "net" 1))

def installed : Files :=
  (unpacked.copy (GenesisConfig.path "home") network (GenesisConfig.path "net")).copy
    (ValidatorKeyFile.path "home") collected "b.json"

end Pemrix.Concrete
