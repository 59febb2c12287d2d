/-
# Node runtime

The operations of a node that write its store besides the consensus engine: the RPC calls
for the faucet, the shielded pool, the registration of validators and the submission of
transactions, and the commit of finalized blocks.
-/
import ZenoChain.Execution.Chain
import ZenoChain.Node.Mempool

namespace ZenoChain

open Word

/-- What a node is configured with. -/
structure NodeConfig where
  chainId : ChainId
  genesis : Genesis
  scheme : SignatureScheme

/-- The state of a node that its operations read and write. -/
structure Node where
  disk : Disk
  zkPool : ShieldedPool := {}
  mempool : Mempool := {}

/-- The engine of the execution plane. -/
def NodeConfig.engine (config : NodeConfig) : ExecutionEngine :=
  { chainId := config.chainId, evmChainId := config.genesis.evmChainId
    economics := some config.genesis.economics, validators := config.genesis.validators }

/-- The faucet's limit for one request. -/
def maxFaucetAmount : ℕ := 1000000000000000000000

/-- Adds to the balance of a stored account and stores it. -/
def creditStored [Hashing] (recipient : Address) (amount : ℕ) : StoreM String PUnit := do
  let store ← readStore
  let account := StateSnapshot.account store.accounts recipient
  write (.putAccount recipient
    { account with balance := saturatingAdd 128 account.balance amount })

/-- Sends from the faucet.  The key file of the faucet may be absent, unreadable, or name the
address that pays. -/
def faucetSend [Hashing] (faucet : Option (Except String Address)) (recipient : Address)
    (amount : ℕ) : StoreM String PUnit :=
  if maxFaucetAmount < amount then
    throw ("faucet maximum is " ++ toString maxFaucetAmount ++ " ZPQ per request")
  else if amount = 0 then throw "amount must be greater than 0"
  else
    match faucet with
    | none => creditStored recipient amount
    | some (.error err) => throw err
    | some (.ok faucetAddress) => do
      let store ← readStore
      let account := StateSnapshot.account store.accounts faucetAddress
      if account.balance < amount then throw "faucet is empty"
      else
        write (.putAccount faucetAddress
          { account with balance := saturatingSub account.balance amount })
        creditStored recipient amount

/-- The descriptor under which a validator registers. -/
def joiningValidator (request : ValidatorJoinRequest) (address : Address) : Validator :=
  { validatorId := "validator-" ++ hexEncode ((Codec.array32 address).take 8), votingPower := 1
    p2pAddress := request.p2pAddress, rpcAddress := request.rpcAddress
    publicKey := request.publicKey, address }

/-- Registers a validator with its self-bond. -/
def registerValidator [Hashing] (config : NodeConfig) (request : ValidatorJoinRequest) :
    StoreM String PUnit :=
  match config.scheme.deriveAddress request.publicKey with
  | .error err => throw ("invalid public key: " ++ err.toText)
  | .ok address =>
    if request.selfBond < config.genesis.economics.minimumSelfBond then
      throw ("self-bond " ++ toString request.selfBond ++ " below minimum " ++
        toString config.genesis.economics.minimumSelfBond)
    else do
      let store ← readStore
      let staking := (StakingSnapshot.load store).ensureValidators
        [joiningValidator request address]
      match staking.delegate address address request.selfBond true with
      | .error err => throw ("delegation failed: " ++ err.toText)
      | .ok staking => write (.putStakingState staking)

/-- **Every outcome of a registration**: nothing happens, or the joining validator is seeded and
its self-bond delegated. -/
theorem registerValidator_cases [Hashing] (config : NodeConfig) (request : ValidatorJoinRequest)
    (d : Disk) :
    Handler.final (registerValidator config request d) = d ∨
    ∃ address staking, ((StakingSnapshot.load d.store).ensureValidators
        [joiningValidator request address]).delegate address address request.selfBond true =
          .ok staking ∧
      Handler.final (registerValidator config request d) =
        d.record (.write (.putStakingState staking)) := by
  rw [registerValidator]
  rcases config.scheme.deriveAddress request.publicKey with err | address
  · exact .inl rfl
  · dsimp only
    split
    · exact .inl rfl
    · rw [Handler.bind_ok (readStore_run d)]
      rcases hdelegate : ((StakingSnapshot.load d.store).ensureValidators
        [joiningValidator request address]).delegate address address request.selfBond true with
        err | staking
      · exact .inl rfl
      · exact .inr ⟨address, staking, hdelegate, rfl⟩

/-- A registered validator stands under its own address. -/
lemma keyed_registerValidator [Hashing] {config : NodeConfig} {request : ValidatorJoinRequest}
    {d : Disk} (h : (StakingSnapshot.load d.store).Keyed) :
    (StakingSnapshot.load (Handler.final (registerValidator config request d)).store).Keyed := by
  rcases registerValidator_cases config request d with heq | ⟨_, _, hdelegate, heq⟩
  · rwa [heq]
  · rw [heq]
    exact (StakingSnapshot.delegate_ok hdelegate).1.keyed (h.ensureValidators _)

/-- The height at which a submitted transaction would be executed. -/
def Store.nextHeight (store : Store) : ℕ :=
  (store.latestBlock.map fun block => block.block.header.height + 1).getD 1

/-- The events of a node: commits of finalized blocks, by replay or after local finalization,
and RPC calls. -/
inductive NodeEvent
  | imported (finalized : FinalizedBlock)
  | finalized (block : Block) (certificate : CommitCertificate)
  | faucetSend (faucet : Option (Except String Address)) (recipient : Address) (amount : ℕ)
  | zkShield (request : ShieldRequest)
  | zkUnshield (request : UnshieldRequest)
  | registerValidator (request : ValidatorJoinRequest)
  | submitTx (tx : Transaction)

/-- Executes a block and commits it with its certificate. -/
def executeAndCommit [Hashing] [Revm] (e : ExecutionEngine) (scheme : SignatureScheme)
    (block : Block) (certificate : CommitCertificate) : StoreM ExecutionError PUnit := do
  let executed ← e.executeBlock scheme block
  ExecutionEngine.commitFinalizedBlock
    { block := executed.block, certificate, receipts := executed.receipts
      epochTransition := executed.epochTransition } executed.state

namespace Node

variable [Hashing] [Revm]

/-- Runs a program on the disk of a node, whether it succeeds or not. -/
def onDisk {ε : Type} (n : Node) (m : StoreM ε PUnit) : Node :=
  { n with disk := Handler.final (m n.disk) }

/-- The node after an event. -/
def handle (config : NodeConfig) (n : Node) : NodeEvent → Node
  | .imported finalized =>
    n.onDisk (config.engine.validateAndCommitFinalizedBlock config.scheme finalized)
  | .finalized block certificate =>
    n.onDisk (executeAndCommit config.engine config.scheme block certificate)
  | .faucetSend faucet recipient amount => n.onDisk (ZenoChain.faucetSend faucet recipient amount)
  | .zkShield request => { n with zkPool := Handler.final (ShieldedPool.shield request n.zkPool) }
  | .zkUnshield request =>
    match ShieldedPool.unshield request n.zkPool with
    | .error _ zkPool => { n with zkPool }
    | .ok _ zkPool => onDisk { n with zkPool } (creditStored request.recipient request.value)
  | .registerValidator request => n.onDisk (ZenoChain.registerValidator config request)
  | .submitTx tx =>
    match config.engine.validateTransaction config.scheme (StateSnapshot.load n.disk.store)
        n.disk.store.nextHeight tx with
    | .error _ => n
    | .ok () =>
      match n.mempool.insert tx with
      | .error _ => n
      | .ok mempool =>
        { n with mempool, disk := n.disk.record (.broadcast (.transaction tx)) }

/-- The node after a sequence of events. -/
def run (config : NodeConfig) (n : Node) (events : List NodeEvent) : Node :=
  events.foldl (handle config) n

end Node

end ZenoChain
