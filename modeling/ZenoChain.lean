import ZenoChain.Base.CompleteTree
import ZenoChain.Base.Digits
import ZenoChain.Base.FirstChoice
import ZenoChain.Base.Handler
import ZenoChain.Base.Histories
import ZenoChain.Base.Instalments
import ZenoChain.Base.Interleaving
import ZenoChain.Base.Outcome
import ZenoChain.Base.PairTree
import ZenoChain.Base.Phases
import ZenoChain.Base.Positions
import ZenoChain.Base.ProRata
import ZenoChain.Base.Quorums
import ZenoChain.Base.Rankings
import ZenoChain.Base.Rlp
import ZenoChain.Base.SelfDelimiting
import ZenoChain.Base.SparseTree
import ZenoChain.Base.Table
import ZenoChain.Base.Trace
import ZenoChain.Base.Window
import ZenoChain.Base.Word
import ZenoChain.Chain.Backends
import ZenoChain.Chain.Codec
import ZenoChain.Chain.Encodings
import ZenoChain.Chain.Equality
import ZenoChain.Chain.Hash
import ZenoChain.Chain.MlDsa
import ZenoChain.Chain.Primitives
import ZenoChain.Chain.Rocks
import ZenoChain.Chain.Storage
import ZenoChain.Chain.Types
import ZenoChain.Chain.WriteAheadLog
import ZenoChain.Consensus.Agreement
import ZenoChain.Consensus.Ballots
import ZenoChain.Consensus.Contexts
import ZenoChain.Consensus.CrashPoints
import ZenoChain.Consensus.Devnet
import ZenoChain.Consensus.Engine
import ZenoChain.Consensus.Framing
import ZenoChain.Consensus.Handlers
import ZenoChain.Consensus.Headers
import ZenoChain.Consensus.Locking
import ZenoChain.Consensus.Log
import ZenoChain.Consensus.Members
import ZenoChain.Consensus.Moves
import ZenoChain.Consensus.Network
import ZenoChain.Consensus.Ordinary
import ZenoChain.Consensus.Outcomes
import ZenoChain.Consensus.Proposal
import ZenoChain.Consensus.Proposers
import ZenoChain.Consensus.Recovery
import ZenoChain.Consensus.Restart
import ZenoChain.Consensus.Runs
import ZenoChain.Consensus.Stable
import ZenoChain.Consensus.StaleLocks
import ZenoChain.Consensus.Tallies
import ZenoChain.Evm.Encodings
import ZenoChain.Evm.EthCall
import ZenoChain.Evm.EthTx
import ZenoChain.Evm.Fields
import ZenoChain.Evm.RawTransactions
import ZenoChain.Evm.RlpCodec
import ZenoChain.Execution.BaseFee
import ZenoChain.Execution.Calendar
import ZenoChain.Execution.Chain
import ZenoChain.Execution.Conservation
import ZenoChain.Execution.Engine
import ZenoChain.Execution.Evm
import ZenoChain.Execution.Nonces
import ZenoChain.Execution.Payloads
import ZenoChain.Execution.Replay
import ZenoChain.Execution.Transparent
import ZenoChain.Node.Actions
import ZenoChain.Node.Backing
import ZenoChain.Node.BlockBuilding
import ZenoChain.Node.BlockIndex
import ZenoChain.Node.BlockSelection
import ZenoChain.Node.CatchUp
import ZenoChain.Node.CommitOrder
import ZenoChain.Node.CommittedRoot
import ZenoChain.Node.ConsensusPlane
import ZenoChain.Node.Credit
import ZenoChain.Node.Epochs
import ZenoChain.Node.Evidence
import ZenoChain.Node.Gossip
import ZenoChain.Node.HeaderSync
import ZenoChain.Node.HeightSteps
import ZenoChain.Node.Heights
import ZenoChain.Node.Ledger
import ZenoChain.Node.LostUpdates
import ZenoChain.Node.Mempool
import ZenoChain.Node.MempoolIndexes
import ZenoChain.Node.NonceGap
import ZenoChain.Node.OneChain
import ZenoChain.Node.Progress
import ZenoChain.Node.QuorumSoundness
import ZenoChain.Node.Reboot
import ZenoChain.Node.Receipts
import ZenoChain.Node.RoundEvents
import ZenoChain.Node.RoundSteps
import ZenoChain.Node.Runtime
import ZenoChain.Node.SharedMemory
import ZenoChain.Node.StakingView
import ZenoChain.Node.Steps
import ZenoChain.Node.Succession
import ZenoChain.Node.SyncMachine
import ZenoChain.Node.ValidatorSet
import ZenoChain.Node.Wealth
import ZenoChain.Peers.Bans
import ZenoChain.Peers.Connections
import ZenoChain.Peers.Duplicates
import ZenoChain.Peers.LiveTable
import ZenoChain.State.Accounts
import ZenoChain.State.Bonds
import ZenoChain.State.Commitment
import ZenoChain.State.Delegations
import ZenoChain.State.Distribution
import ZenoChain.State.Governance
import ZenoChain.State.Penalties
import ZenoChain.State.Records
import ZenoChain.State.Roots
import ZenoChain.State.Roster
import ZenoChain.State.Seats
import ZenoChain.State.Staking
import ZenoChain.Zk.Calldata
import ZenoChain.Zk.CommitmentTree
import ZenoChain.Zk.Failures
import ZenoChain.Zk.Pool
import ZenoChain.Zk.Spending
