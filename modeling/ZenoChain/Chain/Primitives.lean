/-
# Signatures and core protocol helpers

The signature scheme is the trait object of `zeno-crypto`: a record of functions, any of
which may fail.  On top of it stand the signing and checking functions of
`zeno-primitives` for transactions, blocks and votes.
-/
import ZenoChain.Chain.Codec

namespace ZenoChain

/-- Signing domains used for domain separation. -/
inductive SigningDomain
  | transaction
  | blockProposal
  | consensusVote
deriving DecidableEq, Repr

/-- Cryptographic errors. -/
inductive CryptoError
  | malformedKey
  | malformedSignature
  | invalidSignature
  | backend (message : String)
deriving DecidableEq, Repr

/-- The display text of a cryptographic error. -/
def CryptoError.toText : CryptoError → String
  | malformedKey => "unsupported or malformed key material"
  | malformedSignature => "malformed signature"
  | invalidSignature => "signature verification failed"
  | backend message => "backend error: " ++ message

/-- Verifiable signing scheme interface. -/
structure SignatureScheme where
  /-- Signs a canonical message in a given domain. -/
  sign : SigningDomain → Bytes → Bytes → Except CryptoError Bytes
  /-- Verifies a canonical message in a given domain. -/
  verify : SigningDomain → Bytes → Bytes → Bytes → Except CryptoError Unit
  /-- Derives an account address from a public key. -/
  deriveAddress : Bytes → Except CryptoError Address

/-- Maximum memo size. -/
def maxMemoBytes : ℕ := 256

/-- Maximum encoded transaction size. -/
def maxTransactionSize : ℕ := 1048576

/-- Maximum EVM gas limit. -/
def maxGasLimit : ℕ := 30000000

/-- Returns canonical vote bytes without the signature. -/
def canonicalVoteBytes (height round : ℕ) (step : VoteStep) (blockHash : Hash32)
    (validatorAddress : Address) : Bytes :=
  Codec.u64 height ++ Codec.u32 round ++ step.encode ++ Codec.array32 blockHash ++
    Codec.array32 validatorAddress

/-- The canonical bytes of the signed part of a vote. -/
def Vote.signedBytes (v : Vote) : Bytes :=
  canonicalVoteBytes v.height v.round v.step v.blockHash v.validatorAddress

/-- Derives the sender address from the provided public key. -/
def senderFromPublicKey (scheme : SignatureScheme) (publicKey : Bytes) :
    Except TransactionError Address :=
  match scheme.deriveAddress publicKey with
  | .ok address => .ok address
  | .error _ => .error .senderMismatch

/-- Verifies a transaction signature and basic invariants. -/
def verifyTransaction (scheme : SignatureScheme) (chainId : ChainId) (tx : Transaction)
    (currentHeight : ℕ) : Except TransactionError Bytes := do
  let encodedSize := tx.encode.length
  if encodedSize > maxTransactionSize then throw (.transactionTooLarge encodedSize)
  if tx.body.amount = 0 ∧ tx.body.evm.isNone then throw .zeroAmount
  if tx.body.evm.isSome ∧ tx.body.fee < 10 then throw .zeroFee
  if tx.body.fee = 0 then throw .zeroFee
  if tx.body.chainId ≠ chainId then throw .wrongChainId
  if tx.body.memo.any fun memo => memo.utf8ByteSize > maxMemoBytes then throw .memoTooLarge
  if let some validUntil := tx.body.validUntil then
    if currentHeight > validUntil then throw (.expired validUntil)
  if let some evm := tx.body.evm then
    if evm.gasLimit = 0 ∨ evm.gasLimit > maxGasLimit then
      throw (.gasLimitExceeded maxGasLimit evm.gasLimit)
  let derived ← senderFromPublicKey scheme tx.publicKey
  if derived ≠ tx.body.sender then throw .senderMismatch
  match scheme.verify .transaction tx.body.encode tx.publicKey tx.signature with
  | .ok () => return tx.body.encode
  | .error _ => throw .invalidSignature

/-- Signs a block header. -/
def signBlock (scheme : SignatureScheme) (header : BlockHeader) (transactions : List Transaction)
    (proposerPublicKey secretKey : Bytes) : Except String Block :=
  match scheme.sign .blockProposal header.encode secretKey with
  | .ok signature => .ok ⟨header, transactions, proposerPublicKey, signature⟩
  | .error err => .error err.toText

/-- Verifies a block proposal: the proposer's key and its signature of the header. -/
def verifyBlock (scheme : SignatureScheme) (block : Block) : Except String Unit := do
  let derived ← (senderFromPublicKey scheme block.proposerPublicKey).mapError
    TransactionError.toText
  if derived ≠ block.header.proposer then throw "proposer address does not match public key"
  (scheme.verify .blockProposal block.header.encode block.proposerPublicKey
    block.proposerSignature).mapError CryptoError.toText

/-- Signs a consensus vote. -/
def signVote (scheme : SignatureScheme) (vote : Vote) (secretKey : Bytes) : Except String Vote :=
  match scheme.sign .consensusVote vote.signedBytes secretKey with
  | .ok signature => .ok { vote with signature }
  | .error err => .error err.toText

/-- Verifies a consensus vote. -/
def verifyVote (scheme : SignatureScheme) (vote : Vote) : Except String Unit := do
  let address ← (senderFromPublicKey scheme vote.publicKey).mapError TransactionError.toText
  if address ≠ vote.validatorAddress then throw "vote signer mismatch"
  (scheme.verify .consensusVote vote.signedBytes vote.publicKey vote.signature).mapError
    CryptoError.toText

lemma signVote_ok {scheme : SignatureScheme} {vote vote' : Vote} {key : Bytes}
    (h : signVote scheme vote key = .ok vote') : ∃ s, vote' = { vote with signature := s } := by
  rw [signVote] at h
  split at h
  · rename_i s _
    exact ⟨s, (Except.ok.inj h).symm⟩
  · cases h

lemma signBlock_ok {scheme : SignatureScheme} {header : BlockHeader} {txs : List Transaction}
    {pk key : Bytes} {block : Block} (h : signBlock scheme header txs pk key = .ok block) :
    block.header = header ∧ block.transactions = txs ∧ block.proposerPublicKey = pk := by
  rw [signBlock] at h
  split at h
  · obtain rfl := Except.ok.inj h
    exact ⟨rfl, rfl, rfl⟩
  · cases h

end ZenoChain
