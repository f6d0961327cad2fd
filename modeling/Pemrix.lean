import Pemrix.Codec
import Pemrix.Blake3
import Pemrix.Primitives
import Pemrix.TreeMapSums
import Pemrix.Storage
import Pemrix.Vm
import Pemrix.Ledger
import Pemrix.LedgerExec
import Pemrix.StakeBook
import Pemrix.StakeRuns
import Pemrix.Supply
import Pemrix.Quorum
import Pemrix.ValidatorSet
import Pemrix.Rotation
import Pemrix.ProposerTurns
import Pemrix.Bft
import Pemrix.BftSteps
import Pemrix.FinalLog
import Pemrix.OwnVotes
import Pemrix.VotingPower
import Pemrix.Certificates
import Pemrix.ChainLinks
import Pemrix.DeliveryOrder
import Pemrix.Replicas
import Pemrix.Rounds
import Pemrix.Agreement
import Pemrix.Node
import Pemrix.Bootstrap
import Pemrix.NodeSteps
import Pemrix.FirstHeight
import Pemrix.ChainGap
import Pemrix.TwoNodes
import Pemrix.ChainFinality
import Pemrix.Tokenomics
import Pemrix.Backends
import Pemrix.Replay
import Pemrix.Restart
import Pemrix.Rpc
import Pemrix.Mirror
import Pemrix.Solo
import Pemrix.StakePower
import Pemrix.Slashing
import Pemrix.SlashRuns
import Pemrix.FinalStream
import Pemrix.TextForms
import Pemrix.StoreOps
import Pemrix.Interchange
import Pemrix.Json
import Pemrix.Frames
import Pemrix.JsonForms
import Pemrix.Canonical
import Pemrix.Payloads
import Pemrix.Hybrid
import Pemrix.StateRoot
import Pemrix.Tcp
import Pemrix.Dials
import Pemrix.Refill
import Pemrix.FrontEnds
import Pemrix.Confirmed
import Pemrix.SoloLoop
import Pemrix.Poller
import Pemrix.Exits
import Pemrix.AnyStore
import Pemrix.Endings
import Pemrix.Authorised
import Pemrix.Residue
import Pemrix.FailedProposals
import Pemrix.StakeLimits
import Pemrix.Transfers
import Pemrix.Rejections
import Pemrix.FinalizeCalls
import Pemrix.Footprints
import Pemrix.Commuting
import Pemrix.Byzantine
import Pemrix.Ranking
import Pemrix.ActiveSet
import Pemrix.RewardCurve
import Pemrix.Noted
import Pemrix.Arith
import Pemrix.Registrations
import Pemrix.Rewards
import Pemrix.SlashAmounts
import Pemrix.TwiceIngested
import Pemrix.Faucet
import Pemrix.FaucetNonces
import Pemrix.FaucetCooldown
import Pemrix.Sandbox
import Pemrix.FilledMaps
import Pemrix.Lookups
import Pemrix.CutStreams
import Pemrix.Genesis
import Pemrix.HashChain
import Pemrix.IdleLedger
import Pemrix.Redials
import Pemrix.SoloChain
import Pemrix.LostVotes
import Pemrix.Files
import Pemrix.PrettyJson
import Pemrix.NodeFiles
import Pemrix.NodeStart
import Pemrix.Deployment
import Pemrix.JsonValue
import Pemrix.Rest
import Pemrix.HttpClient
import Pemrix.Wallet
import Pemrix.Bank
import Pemrix.Payments
import Pemrix.Served
import Pemrix.ExplorerRuns
