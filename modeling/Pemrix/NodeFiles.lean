-- The files in the data directory of a node: its configuration, the genesis of its
-- chain and the key of its validator. What is saved there is what is loaded again.
import Pemrix.Files
import Pemrix.Genesis
import Pemrix.Hybrid
import Pemrix.PrettyJson
import Pemrix.Redials

open Std
open JsonForm (bool text map seq option struct struct_with_options)
open JsonForm.Fields (first last)

namespace Pemrix

/-- An error, with its text where the node writes it. -/
inductive NodeError where
  | Config (message : Option String)
  | Storage (e : StorageError)
  | Consensus
  | Network
  | Io
  deriving DecidableEq

/-! ## Socket addresses -/

/-- The texts of socket addresses (`std::net`). An address that comes from a text is read back
from the text that it is shown as. -/
class SocketAddrText where
  to_string : SocketAddr → String
  from_str : String → Option SocketAddr
  from_to : ∀ {s : String} {addr : SocketAddr}, from_str s = some addr →
    from_str (to_string addr) = some addr

/-- A socket address that came from a text. -/
structure ParsedAddr [SocketAddrText] where
  addr : SocketAddr
  readable : SocketAddrText.from_str (SocketAddrText.to_string addr) = some addr

def ParsedAddr.from_str [SocketAddrText] (s : String) : Option ParsedAddr :=
  match h : SocketAddrText.from_str s with
  | none => none
  | some addr => some ⟨addr, SocketAddrText.from_to h⟩

theorem ParsedAddr.from_str_to_string [SocketAddrText] (a : ParsedAddr) :
    ParsedAddr.from_str (SocketAddrText.to_string a.addr) = some a := by
  have hreadable := a.readable
  unfold ParsedAddr.from_str
  split
  · rename_i h
    rw [h] at hreadable
    cases hreadable
  · rename_i addr h
    rw [h] at hreadable
    cases a
    cases hreadable
    rfl

theorem ParsedAddr.from_str_of [SocketAddrText] {s : String} {addr : SocketAddr}
    (h : SocketAddrText.from_str s = some addr) :
    ∃ p, ParsedAddr.from_str s = some p ∧ p.addr = addr := by
  unfold ParsedAddr.from_str
  split
  · rename_i hnone
    rw [h] at hnone
    cases hnone
  · rename_i addr' hsome
    rw [h] at hsome
    cases hsome
    exact ⟨_, rfl, rfl⟩

/-! ## Peers -/

namespace PeerId

def from_public_key_hash (hash : Hash) : PeerId := ⟨hash.bytes⟩

def to_string (id : PeerId) : String := InMemoryBackend.hex_encode id.bytes.toList

def from_str (s : String) : Except String PeerId :=
  (parse_bytes32 "peer id must be 32 bytes" s.toList).map PeerId.mk

theorem from_str_to_string (id : PeerId) : from_str id.to_string = .ok id := by
  unfold from_str to_string
  rw [parse_bytes32_hex_encode]
  rfl

/-- An id comes back from its text as the key of a map. -/
theorem key_to_string (id : PeerId) : (from_str id.to_string).toOption = some id := by
  rw [from_str_to_string]
  rfl

end PeerId

theorem Address.key_to_string (a : Address) :
    (Address.from_str a.to_string).toOption = some a := by
  rw [Address.from_str_to_string]
  rfl

/-! ## The configuration -/

structure NodeConfig [SocketAddrText] where
  data_dir : String
  rpc_listen : String
  p2p_listen : String
  validator : Bool
  bootstrap_nodes : ExtTreeMap PeerId ParsedAddr
  validator_set : Option ValidatorSet
  local_validator_address : Option Address

/-- The keys of a validator as they are kept in a file. -/
structure ValidatorKeyFile where
  address : String
  public_key : String
  secret_key : String

def single_validator_set (address : Address) : ValidatorSet := .from_validators [⟨address, 1⟩]

namespace Forms

def validator_set : JsonForm ValidatorSet :=
  (struct (last "validators"
    (map Address.to_string (fun s => (Address.from_str s).toOption) Address.key_to_string
      u64))).via
    ValidatorSet.validators (some ⟨·⟩) fun _ => rfl

def socket_addr [SocketAddrText] : JsonForm ParsedAddr :=
  text (fun a => SocketAddrText.to_string a.addr) ParsedAddr.from_str
    ParsedAddr.from_str_to_string

def node_config_fields : List String :=
  ["data_dir", "rpc_listen", "p2p_listen", "validator", "bootstrap_nodes", "validator_set",
    "local_validator_address"]

def node_config [SocketAddrText] : JsonForm NodeConfig :=
  (struct_with_options (first "data_dir" string (first "rpc_listen" string
    (first "p2p_listen" string (first "validator" bool
    (first "bootstrap_nodes"
      (map PeerId.to_string (fun s => (PeerId.from_str s).toOption) PeerId.key_to_string
        socket_addr)
    (first "validator_set" (validator_set.option fun _ h => nomatch h)
    (last "local_validator_address" (address.option fun _ h => nomatch h))))))))
    ["validator_set", "local_validator_address"]
    (show node_config_fields.Nodup by decide)
    (show ∀ name ∈ ["validator_set", "local_validator_address"], name ∈ node_config_fields by
      decide)).via
    (fun c => (c.data_dir, c.rpc_listen, c.p2p_listen, c.validator, c.bootstrap_nodes,
      c.validator_set, c.local_validator_address))
    (fun p => some ⟨p.1, p.2.1, p.2.2.1, p.2.2.2.1, p.2.2.2.2.1, p.2.2.2.2.2.1, p.2.2.2.2.2.2⟩)
    fun _ => rfl

def genesis_config : JsonForm GenesisConfig :=
  (struct (first "chain_id" string (first "timestamp" u64
    (first "allocations"
      (map Address.to_string (fun s => (Address.from_str s).toOption) Address.key_to_string account)
    (last "validators" address.seq))))).via
    (fun g => (g.chain_id, g.timestamp, g.allocations, g.validators))
    (fun p => some ⟨p.1, p.2.1, p.2.2.1, p.2.2.2⟩) fun _ => rfl

def validator_key_file : JsonForm ValidatorKeyFile :=
  (struct (first "address" string (first "public_key" string (last "secret_key" string)))).via
    (fun k => (k.address, k.public_key, k.secret_key)) (fun p => some ⟨p.1, p.2.1, p.2.2⟩)
    fun _ => rfl

end Forms

/-! ## Saving and loading -/

theorem node_file : IsFileName "node.json" := ⟨by decide, by decide, by decide⟩

theorem genesis_file : IsFileName "genesis.json" := ⟨by decide, by decide, by decide⟩

theorem key_file : IsFileName "validator_key.json" := ⟨by decide, by decide, by decide⟩

/-- A value out of the text of a file. -/
def parse_file {α : Type} (f : JsonForm α) (text : List UInt8) : Except NodeError α :=
  (f.from_slice text).elim (.error (.Config none)) .ok

theorem parse_file_pretty {α : Type} (f : JsonForm α) (a : α) :
    parse_file f (f.to_string_pretty a) = .ok a := by
  unfold parse_file
  rw [JsonForm.from_slice_to_string_pretty]
  rfl

namespace NodeConfig

variable [SocketAddrText]

def path (data_dir : String) : String := FilePath.join data_dir "node.json"

def for_data_dir (data_dir : String) : NodeConfig where
  data_dir := data_dir
  rpc_listen := "127.0.0.1:61001"
  p2p_listen := "0.0.0.0:61100"
  validator := false
  bootstrap_nodes := ∅
  validator_set := none
  local_validator_address := none

/-- With no file there, the defaults. -/
def load (files : Files) (data_dir : String) : Except NodeError NodeConfig :=
  match files.read (path data_dir) with
  | none => .ok (for_data_dir data_dir)
  | some contents => parse_file Forms.node_config contents

/-- It goes to the directory that it names itself. -/
def save (config : NodeConfig) (files : Files) : Files :=
  files.write (path config.data_dir) (Forms.node_config.to_string_pretty config)

theorem load_of_read {files : Files} {data_dir : String} {config : NodeConfig}
    (h : files.read (path data_dir) = some (Forms.node_config.to_string_pretty config)) :
    load files data_dir = .ok config := by
  unfold load
  rw [h]
  exact parse_file_pretty _ _

end NodeConfig

namespace GenesisConfig

def path (data_dir : String) : String := FilePath.join data_dir "genesis.json"

def load (files : Files) (data_dir : String) : Except NodeError GenesisConfig :=
  match files.read (path data_dir) with
  | none => .error .Io
  | some contents => parse_file Forms.genesis_config contents

def save (genesis : GenesisConfig) (files : Files) (data_dir : String) : Files :=
  files.write (path data_dir) (Forms.genesis_config.to_string_pretty genesis)

theorem load_of_read {files : Files} {data_dir : String} {genesis : GenesisConfig}
    (h : files.read (path data_dir) = some (Forms.genesis_config.to_string_pretty genesis)) :
    load files data_dir = .ok genesis := by
  unfold load
  rw [h]
  exact parse_file_pretty _ _

end GenesisConfig

namespace ValidatorKeyFile

def FILE_NAME : String := "validator_key.json"

def path (data_dir : String) : String := FilePath.join data_dir FILE_NAME

def from_keypair [Crates] (keypair : KeyPair) : ValidatorKeyFile where
  address :=
    (Address.from_public_key_hash (Hash.hash_bytes keypair.public_key.bytes)).to_string
  public_key := InMemoryBackend.hex_encode keypair.public_key.bytes
  secret_key := InMemoryBackend.hex_encode keypair.secret.bytes

def to_keypair (key_file : ValidatorKeyFile) : Except NodeError KeyPair :=
  match hex_decode key_file.public_key.toList, hex_decode key_file.secret_key.toList with
  | some public_key, some secret => .ok ⟨⟨public_key⟩, ⟨secret⟩⟩
  | _, _ => .error (.Config none)

/-- The address that the file names, whatever its keys are. -/
def get_address (key_file : ValidatorKeyFile) : Except NodeError Address :=
  match Address.from_str key_file.address with
  | .error e => .error (.Config (some ("invalid validator address: " ++ e)))
  | .ok address => .ok address

def load (files : Files) (data_dir : String) : Except NodeError ValidatorKeyFile :=
  match files.read (path data_dir) with
  | none => .error .Io
  | some contents => parse_file Forms.validator_key_file contents

/-- The keys are random. -/
def generate_and_save [Crates] (keypair : KeyPair) (files : Files) (data_dir : String) :
    ValidatorKeyFile × Files :=
  let key_file := from_keypair keypair
  (key_file, files.write (path data_dir) (Forms.validator_key_file.to_string_pretty key_file))

theorem load_of_read {files : Files} {data_dir : String} {key_file : ValidatorKeyFile}
    (h : files.read (path data_dir) =
      some (Forms.validator_key_file.to_string_pretty key_file)) :
    load files data_dir = .ok key_file := by
  unfold load
  rw [h]
  exact parse_file_pretty _ _

theorem to_keypair_from_keypair [Crates] (keypair : KeyPair) :
    (from_keypair keypair).to_keypair = .ok keypair := by
  unfold to_keypair from_keypair
  dsimp only
  rw [hex_decode_hex_encode, hex_decode_hex_encode]

/-- The file of a key pair names the address of its public key. -/
theorem get_address_from_keypair [Crates] (keypair : KeyPair) :
    (from_keypair keypair).get_address =
      .ok (.from_public_key_hash (Hash.hash_bytes keypair.public_key.bytes)) := by
  unfold get_address from_keypair
  dsimp only
  rw [Address.from_str_to_string]

end ValidatorKeyFile

/-! ## Addresses of version 4 -/

namespace Concrete

/-- A number below the bound, without zeros in front of it. -/
def number_below (bound : Nat) (digits : List Char) : Bool :=
  let n := Nat.ofDigitChars 10 digits 0
  digits.all Char.isDigit && n < bound && Nat.toDigits 10 n = digits

/-- Four numbers with dots between them, and the port. -/
def parse_ipv4 (s : String) : Option SocketAddr :=
  match s.toList.splitOn ':' with
  | [host, port] =>
    if (host.splitOn '.').length = 4 ∧ (host.splitOn '.').all (number_below 256) ∧
        number_below (2 ^ 16) port then
      some ⟨String.ofList host, UInt16.ofNat (Nat.ofDigitChars 10 port 0)⟩
    else none
  | _ => none

/-- The addresses of version 4, in the form in which they are shown. -/
scoped instance : SocketAddrText where
  to_string addr := addr.host ++ ":" ++ toString addr.port.toNat
  from_str s := (parse_ipv4 s).filter fun addr => addr.host ++ ":" ++ toString addr.port.toNat = s
  from_to := by
    intro s addr h
    have hshown := (Option.filter_eq_some_iff.mp h).2
    rw [decide_eq_true_eq] at hshown
    rw [hshown]
    exact h

example : SocketAddrText.from_str "10.0.0.7:61101" = some ⟨"10.0.0.7", 61101⟩ ∧
    SocketAddrText.from_str "10.0.0.7" = none := by decide +kernel

end Concrete

end Pemrix
