/-
# A transparent instance

Digests and signatures that can be computed by hand, for concrete runs: the digest of a
byte string is its value as a number in base 257, and a signature spells out its domain,
its key and its message.  There is no EVM interpreter, only the precompiles.
-/
import ZenoChain.Execution.Engine

namespace ZenoChain.Transparent

/-- A byte string as a number in base 257, with digits from one. -/
def number (b : Bytes) : ℕ := b.foldl (fun n x => n * 257 + x.toNat + 1) 0

/-- The digests: the number of a byte string modulo `2 ^ 256`, and for the paths of the state
tree its low 64 bits in the leading place. -/
scoped instance hashing : Hashing :=
  { hashBytes := fun b => BitVec.ofNat 256 (number b)
    sha3Hash := fun b => BitVec.ofNat 256 (number b * 2 ^ 192) }

/-- The byte that stands for a domain. -/
def domainTag : SigningDomain → UInt8
  | .transaction => 0
  | .blockProposal => 1
  | .consensusVote => 2

/-- The only signature of a message under a key. -/
def signatureOf (domain : SigningDomain) (message key : Bytes) : Bytes :=
  domainTag domain :: (key ++ message)

/-- The scheme in which the secret key is the public key. -/
def scheme : SignatureScheme :=
  { sign := fun domain message key => .ok (signatureOf domain message key)
    verify := fun domain message publicKey signature =>
      if signature = signatureOf domain message publicKey then .ok ()
      else .error .invalidSignature
    deriveAddress := fun publicKey => .ok (BitVec.ofNat 256 (number publicKey)) }

/-- The third-party code of the executor: the interpreter refuses every transaction. -/
scoped instance revm : Revm :=
  { transactCommit := fun _ _ _ _ => .error "no interpreter", defaultScheme := scheme }

/-- A signature verifies exactly if it is the one of the message under the key. -/
lemma verify_ok_iff {domain : SigningDomain} {message key signature : Bytes} :
    scheme.verify domain message key signature = .ok () ↔
      signature = signatureOf domain message key := by
  simp only [scheme]
  split <;> simp_all

/-- The address of a key. -/
def address (key : Bytes) : Address := BitVec.ofNat 256 (number key)

/-- A transaction signed by its sender. -/
def signed (body : TransactionBody) (key : Bytes) : Transaction :=
  { body, publicKey := key, signature := signatureOf .transaction body.encode key }

/-- The accounts of a list of keys with their balances. -/
def holding (balances : List (Bytes × ℕ)) : BTreeMap Address Account :=
  balances.foldl (fun m e => m.insert (address e.1) { balance := e.2 }) ∅

/-- A transfer on the chain `zeno`, or an EVM transaction if there is a payload. -/
def payment (key : Bytes) (recipient : Address) (amount nonce fee : ℕ)
    (evm : Option EvmTransaction) : Transaction :=
  signed
    { chainId := "zeno", sender := address key, recipient, amount, nonce, fee, evm
      memo := none, validUntil := none } key

/-- An engine without EVM support and without economics, on the chain `zeno`. -/
def devnet : ExecutionEngine :=
  { chainId := "zeno", evmChainId := none, economics := none, validators := [] }

/-- A store without blocks on which the account of the key `1` holds a hundred units. -/
def funded : Disk := { store := { backend := .memory, accounts := holding [([1], 100)] } }

/-- A block signed by its proposer. -/
def sealBlock (header : BlockHeader) (transactions : List Transaction) (key : Bytes) : Block :=
  { header, transactions, proposerPublicKey := key
    proposerSignature := signatureOf .blockProposal header.encode key }

/-- A vote signed by its author. -/
def castVote (key : Bytes) (height round : ℕ) (step : VoteStep) (blockHash : Hash32) : Vote :=
  let vote : Vote :=
    { height, round, step, blockHash, validatorAddress := address key, publicKey := key
      signature := [] }
  { vote with signature := signatureOf .consensusVote vote.signedBytes key }

/-- The block that a proposer builds from a dry run of some transactions; from the stored
accounts where the dry run fails. -/
def propose (e : ExecutionEngine) (d : Disk) (key : Bytes) (height round timestampMs : ℕ)
    (transactions : List Transaction) : Block :=
  let (state, receipts) :=
    match e.dryRunTransactions scheme height transactions (address key) d with
    | .ok (state, receipts) _ => (state, receipts)
    | .error _ d => (StateSnapshot.load d.store, [])
  sealBlock (e.buildHeader d.store (address key) height round timestampMs transactions state
    receipts) transactions key

/-- A block with a certificate that carries no votes; the execution engine does not look at
certificates. -/
def uncertified (block : Block) (receipts : List Receipt) : FinalizedBlock :=
  { block, receipts, epochTransition := none
    certificate :=
      { blockHash := block.hash, height := block.header.height, round := block.header.round
        votes := [] } }

end ZenoChain.Transparent
