/-
# A network of four validators

Engines and blocks for concrete runs: four validators with the keys `1` to `4` and no bond,
all of them active, on the transparent instance of digests and signatures.
-/
import ZenoChain.Consensus.Engine
import ZenoChain.Execution.Transparent

namespace ZenoChain.Transparent

/-- The validator with a key. -/
def validatorOf (key : Bytes) : Validator :=
  { validatorId := "", votingPower := 1, p2pAddress := "", rpcAddress := "", publicKey := key
    address := address key }

/-- The four validators, in the order in which they propose. -/
def validators : List Validator := [[1], [2], [3], [4]].map validatorOf

/-- Epochs of two blocks, no bond needed, and a tenth of the stake for a fault. -/
def economics : EconomicsParams :=
  { minimumSelfBond := 0, epochLength := 2, unbondingEpochs := 1, treasuryBps := 0
    downtimeSlashBps := 1000, doubleSignSlashBps := 1000 }

/-- The engine of the validator with a key. -/
def engineOf (key : Bytes) : ConsensusEngine :=
  { chainId := "zeno", validators, scheme, economics
    execution := { devnet with economics := some economics, validators }
    params :=
      { proposalTimeoutMs := 0, voteTimeoutMs := 0, maxTransactionsPerBlock := 10
        maxBlockBytes := 100000 }
    localValidator := some ⟨validatorOf key, key⟩ }

/-- A disk without history and without accounts. -/
def blank : Disk := { store := { backend := .memory } }

/-- The header of an empty block of a proposer in the first height. -/
def emptyHeader (key : Bytes) (round : ℕ) : BlockHeader :=
  { height := 1, round, chainId := "zeno", parentHash := 0, txRoot := 0, stateRoot := 0
    receiptRoot := 0, proposer := address key, timestampMs := 0 }

/-- The proposal of an empty block in the first height; its roots are not those of the block. -/
def emptyProposal (key : Bytes) (round : ℕ) : Proposal :=
  ⟨1, round, sealBlock (emptyHeader key round) [] key, address key⟩

end ZenoChain.Transparent
