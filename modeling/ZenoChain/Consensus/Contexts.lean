/-
# Where a signature counts

A context is a kind of message on a chain.  The domain tags keep the kinds apart, and transactions
and headers name their chain in what is signed.  Votes do not, so the votes of one chain count on
every other one.
-/
import ZenoChain.Chain.MlDsa
import ZenoChain.Consensus.Members
import ZenoChain.Consensus.Outcomes
import ZenoChain.Consensus.Proposal
import ZenoChain.Consensus.Tallies

namespace ZenoChain

open Handler ConsensusEngine

/-! ## What the checks check -/

section

variable {scheme : SignatureScheme}

lemma verifyTransaction_ok {chainId : ChainId} {tx : Transaction} {height : ℕ} {bytes : Bytes}
    (h : verifyTransaction scheme chainId tx height = .ok bytes) : tx.body.chainId = chainId ∧
      scheme.verify .transaction tx.body.encode tx.publicKey tx.signature = .ok () := by
  rw [verifyTransaction] at h
  simp only [bind, Except.bind, throw, throwThe, MonadExceptOf.throw, pure, Except.pure] at h
  constructor
  · by_contra hchain
    rw [if_pos hchain] at h
    split_ifs at h
  · rcases hverify : scheme.verify .transaction tx.body.encode tx.publicKey tx.signature with
      err | ⟨⟩
    · rw [hverify] at h
      dsimp only at h
      repeat' split at h
      all_goals cases h
    · rfl

lemma verifyBlock_ok {block : Block} (h : verifyBlock scheme block = .ok ()) :
    scheme.verify .blockProposal block.header.encode block.proposerPublicKey
      block.proposerSignature = .ok () := by
  rw [verifyBlock] at h
  simp only [bind, Except.bind, throw, throwThe, MonadExceptOf.throw] at h
  rcases hverify : scheme.verify .blockProposal block.header.encode block.proposerPublicKey
    block.proposerSignature with err | ⟨⟩
  · rw [hverify] at h
    repeat' split at h
    all_goals cases h
  · rfl

lemma verifyVote_ok {vote : Vote} (h : verifyVote scheme vote = .ok ()) :
    scheme.verify .consensusVote vote.signedBytes vote.publicKey vote.signature = .ok () := by
  rw [verifyVote] at h
  simp only [bind, Except.bind, throw, throwThe, MonadExceptOf.throw] at h
  rcases hverify : scheme.verify .consensusVote vote.signedBytes vote.publicKey vote.signature with
    err | ⟨⟩
  · rw [hverify] at h
    repeat' split at h
    all_goals cases h
  · rfl

end

/-! ## Contexts -/

/-- A kind of message on a chain. -/
structure Context where
  kind : SigningDomain
  chainId : ChainId
  fits : chainId.utf8ByteSize < 2 ^ 64

namespace Context

variable [Hashing] {sig : Sig} {c c' : Context} {σ : Bytes}

/-- The message that is signed in a context under a signature. -/
inductive Signed (sig : Sig) : Context → Bytes → Bytes → Bytes → Prop
  | transaction {c : Context} {body : TransactionBody} {publicKey secretKey : Bytes}
      {tx : Transaction} (kind : c.kind = .transaction) (chain : body.chainId = c.chainId)
      (signs : signTransaction (mlDsaScheme sig) body publicKey secretKey = .ok tx) :
      Signed sig c body.encode secretKey tx.signature
  | header {c : Context} {header : BlockHeader} {transactions : List Transaction}
      {publicKey secretKey : Bytes} {block : Block} (kind : c.kind = .blockProposal)
      (chain : header.chainId = c.chainId)
      (signs : signBlock (mlDsaScheme sig) header transactions publicKey secretKey = .ok block) :
      Signed sig c header.encode secretKey block.proposerSignature
  | vote {c : Context} {vote vote' : Vote} {secretKey : Bytes} (kind : c.kind = .consensusVote)
      (signs : signVote (mlDsaScheme sig) vote secretKey = .ok vote') :
      Signed sig c vote.signedBytes secretKey vote'.signature

/-- A signature is accepted in a context, under some message: by the check of a transaction for the
chain, by the check of a proposal for it, or by the recording of a vote on an engine of it. -/
inductive Accepts (sig : Sig) : Context → Bytes → Prop
  | transaction {c : Context} {tx : Transaction} {height : ℕ} {bytes : Bytes}
      (kind : c.kind = .transaction)
      (verifies : verifyTransaction (mlDsaScheme sig) c.chainId tx height = .ok bytes) :
      Accepts sig c tx.signature
  | header {c : Context} {expected : Validator} {proposal : Proposal} {store : Store}
      {execution : ExecutionEngine} {maxTransactions : ℕ} (kind : c.kind = .blockProposal)
      (validates : validateIncomingProposal (mlDsaScheme sig) expected proposal c.chainId store
        execution maxTransactions = .ok ()) :
      Accepts sig c proposal.block.proposerSignature
  | vote {c : Context} {e : ConsensusEngine} {w w' : World} {vote : Vote}
      {out : Option Hash32 × Option Hash32} (kind : c.kind = .consensusVote)
      (chain : e.chainId = c.chainId) (scheme : e.scheme = mlDsaScheme sig)
      (records : e.recordVote vote w = .ok out w') :
      Accepts sig c vote.signature

/-- The bytes of a message tell the chain of its context. -/
def Names (c : Context) (message : Bytes) : Prop :=
  match c.kind with
  | .transaction => ∃ body : TransactionBody, body.chainId = c.chainId ∧ message = body.encode
  | .blockProposal => ∃ header : BlockHeader, header.chainId = c.chainId ∧ message = header.encode
  | .consensusVote => True

/-- What is signed is the message with the tag of its kind. -/
lemma Signed.signs {message secretKey : Bytes} (h : Signed sig c message secretKey σ) :
    sig.sign (domainMessage c.kind message) secretKey = .ok σ ∧ c.Names message := by
  cases h with
  | @transaction _ _ _ _ kind chain signs =>
    rw [signTransaction] at signs
    split at signs
    · rename_i hsign
      cases signs
      rw [Names, kind]
      exact ⟨hsign, _, chain, rfl⟩
    · cases signs
  | @header _ _ _ _ _ kind chain signs =>
    rw [signBlock] at signs
    split at signs
    · rename_i hsign
      cases signs
      rw [Names, kind]
      exact ⟨hsign, _, chain, rfl⟩
    · cases signs
  | vote kind signs =>
    rw [signVote] at signs
    split at signs
    · rename_i hsign
      cases signs
      rw [Names, kind]
      exact ⟨hsign, trivial⟩
    · cases signs

/-- What is accepted has been verified for the message with the tag of its kind. -/
lemma Accepts.verifies (h : Accepts sig c σ) : ∃ message publicKey,
    sig.verify (domainMessage c.kind message) σ publicKey = .ok () ∧ c.Names message := by
  cases h with
  | @transaction tx _ _ kind verifies =>
    obtain ⟨chain, hverify⟩ := verifyTransaction_ok verifies
    refine ⟨tx.body.encode, tx.publicKey, ?_⟩
    rw [Names, kind]
    exact ⟨hverify, _, chain, rfl⟩
  | @header _ proposal _ _ _ kind validates =>
    have haccepts := validateIncomingProposal_ok validates
    refine ⟨proposal.block.header.encode, proposal.block.proposerPublicKey, ?_⟩
    rw [Names, kind]
    exact ⟨verifyBlock_ok haccepts.verified, _, haccepts.chain, rfl⟩
  | @vote e w _ vote _ kind chain scheme records =>
    rcases recordVote_cases e vote w with ⟨err, hrun⟩ | ⟨_, _, _, hverify, -⟩
    · rw [hrun] at records
      cases records
    · rw [scheme] at hverify
      refine ⟨vote.signedBytes, vote.publicKey, ?_⟩
      rw [Names, kind]
      exact ⟨verifyVote_ok hverify, trivial⟩

omit [Hashing] in
/-- Among contexts that name their chain, a message has one chain. -/
lemma chainId_of_names {message : Bytes} (hkind : c.kind = c'.kind)
    (hvote : c.kind ≠ .consensusVote) (h : c.Names message) (h' : c'.Names message) :
    c.chainId = c'.chainId := by
  rw [Names] at h h'
  rw [← hkind] at h'
  rcases hc : c.kind with _ | _ | _
  · rw [hc] at h h'
    obtain ⟨body, hchain, rfl⟩ := h
    obtain ⟨body', hchain', heq⟩ := h'
    rw [← hchain, ← hchain']
    exact TransactionBody.chainId_of_encode_eq (hchain ▸ c.fits) (hchain' ▸ c'.fits) heq
  · rw [hc] at h h'
    obtain ⟨header, hchain, rfl⟩ := h
    obtain ⟨header', hchain', heq⟩ := h'
    rw [← hchain, ← hchain']
    exact BlockHeader.chainId_of_encode_eq (hchain ▸ c.fits) (hchain' ▸ c'.fits) heq
  · exact absurd hc hvote

/-- **No signature is accepted elsewhere**, except that votes name no chain. -/
lemma not_accepts_of_signed (hideal : sig.Ideal) (hne : c ≠ c')
    (hvotes : ¬ (c.kind = .consensusVote ∧ c'.kind = .consensusVote)) {message secretKey : Bytes}
    (hsigned : Signed sig c message secretKey σ) : ¬ Accepts sig c' σ := by
  intro haccepts
  obtain ⟨hsign, hnames⟩ := hsigned.signs
  obtain ⟨message', publicKey, hverify, hnames'⟩ := haccepts.verifies
  obtain ⟨hmessage, -⟩ := (hideal.exact hsign).mp hverify
  obtain ⟨hkind, rfl⟩ := domainMessage_inj hmessage
  have hchain := chainId_of_names hkind.symm (fun hvote => hvotes ⟨hvote, hkind.trans hvote⟩)
    hnames hnames'
  refine hne ?_
  cases c
  cases c'
  congr 1
  exact hkind.symm

/-! ## A vote on every chain -/

/-- The engine of an observer on a chain with one validator. -/
def observer (sig : Sig) (chainId : ChainId) (publicKey : Bytes) : ConsensusEngine :=
  { chainId, scheme := mlDsaScheme sig, localValidator := none
    validators :=
      [{ validatorId := "", votingPower := 1, p2pAddress := "", rpcAddress := "", publicKey
         address := hashBytes ("zeno.address.v1".toUTF8.toList ++ publicKey) }]
    execution := { chainId, evmChainId := none, economics := none, validators := [] }
    params :=
      { proposalTimeoutMs := 0, voteTimeoutMs := 0, maxTransactionsPerBlock := 0
        maxBlockBytes := 0 }
    economics :=
      { minimumSelfBond := 0, epochLength := 1, unbondingEpochs := 0, treasuryBps := 0
        downtimeSlashBps := 0, doubleSignSlashBps := 0 } }

/-- A vote that its author has signed verifies. -/
lemma verifyVote_signed (hideal : sig.Ideal) {vote vote' : Vote} {secretKey : Bytes}
    (hkeys : sig.IsKeypair vote.publicKey secretKey)
    (haddress : vote.validatorAddress = hashBytes ("zeno.address.v1".toUTF8.toList ++ vote.publicKey))
    (hsigns : signVote (mlDsaScheme sig) vote secretKey = .ok vote') :
    verifyVote (mlDsaScheme sig) vote' = .ok () := by
  rw [signVote] at hsigns
  split at hsigns
  · rename_i signature hsign
    cases hsigns
    have hverify : sig.verify (domainMessage .consensusVote vote.signedBytes) signature
        vote.publicKey = .ok () := (hideal.exact hsign).mpr ⟨rfl, hkeys⟩
    have hsender : senderFromPublicKey (mlDsaScheme sig) vote.publicKey =
        .ok vote.validatorAddress := by
      rw [senderFromPublicKey, haddress]
      simp only [mlDsaScheme, (hideal.signs hkeys).1, ne_eq, not_true, if_false]
    rw [verifyVote, hsender]
    simp only [Handler.mapError_ok, bind, Except.bind, ne_eq, not_true, if_false]
    exact congrArg (Except.mapError CryptoError.toText) hverify
  · cases hsigns

/-- **A vote counts on every chain.** -/
lemma accepts_vote (hideal : sig.Ideal) {vote vote' : Vote} {secretKey : Bytes}
    (hkeys : sig.IsKeypair vote.publicKey secretKey)
    (haddress : vote.validatorAddress = hashBytes ("zeno.address.v1".toUTF8.toList ++ vote.publicKey))
    (hsigns : signVote (mlDsaScheme sig) vote secretKey = .ok vote')
    (hkind : c.kind = .consensusVote) : Accepts sig c vote'.signature := by
  obtain ⟨signature, rfl⟩ := signVote_ok hsigns
  set e := observer sig c.chainId vote.publicKey
  have hknows : e.Knows { backend := .memory } vote.validatorAddress :=
    knows_iff.mpr (.inl (List.mem_singleton.mpr haddress))
  obtain ⟨staking, hnoted⟩ := exists_noted hknows
  obtain ⟨out, w', hrun, -⟩ := recordVote_noted (e := e) (w := World.boot { store := { backend := .memory } })
    (verifyVote_signed hideal hkeys haddress hsigns) hnoted
  exact .vote hkind rfl rfl hrun

/-- **Where signatures carry over.**  Of two contexts, the signatures of one are refused in the
other one, whatever is signed, exactly if they are not the votes of two chains. -/
theorem signed_refused_iff (hideal : sig.Ideal) (hne : c ≠ c') :
    (∀ message secretKey σ, Signed sig c message secretKey σ → ¬ Accepts sig c' σ) ↔
      ¬ (c.kind = .consensusVote ∧ c'.kind = .consensusVote) := by
  constructor
  · rintro hrefused ⟨hkind, hkind'⟩
    obtain ⟨publicKey, secretKey, hkeys⟩ := hideal.generates
    set vote : Vote :=
      { height := 1, round := 0, step := .precommit, blockHash := 0, publicKey, signature := []
        validatorAddress := hashBytes ("zeno.address.v1".toUTF8.toList ++ publicKey) }
    obtain ⟨signature, hsign⟩ :=
      (hideal.signs hkeys).2 (domainMessage .consensusVote vote.signedBytes)
    have hsigns : signVote (mlDsaScheme sig) vote secretKey = .ok { vote with signature } := by
      have hscheme : (mlDsaScheme sig).sign .consensusVote vote.signedBytes secretKey =
          .ok signature := hsign
      rw [signVote, hscheme]
    exact hrefused _ _ _ (.vote hkind hsigns) (accepts_vote hideal hkeys rfl hsigns hkind')
  · exact fun hvotes _ _ _ => not_accepts_of_signed hideal hne hvotes

end Context

/-! ## A library that spells out what was signed -/

section

open Transparent Context

/-- Keys are single bytes, a secret key is its public key, and a signature spells out the key and
the message. -/
def spelled : Sig where
  lengthPublicKey := 1
  IsKeypair publicKey secretKey := publicKey = secretKey ∧ publicKey.length = 1
  sign message secretKey :=
    if secretKey.length = 1 then .ok (secretKey ++ message) else .error .malformedKey
  verify message signature publicKey :=
    if publicKey.length = 1 ∧ signature = publicKey ++ message then .ok ()
    else .error .invalidSignature

lemma spelled_ideal : spelled.Ideal where
  exact := by
    intro message secretKey signature message' publicKey hsign
    simp only [spelled] at hsign ⊢
    split_ifs at hsign with hlength
    cases hsign
    constructor
    · intro hverify
      split_ifs at hverify with hgood
      obtain ⟨hpublic, heq⟩ := hgood
      obtain ⟨hkey, hmessage⟩ := List.append_inj heq (hlength.trans hpublic.symm)
      exact ⟨hmessage.symm, hkey.symm, hpublic⟩
    · rintro ⟨rfl, rfl, hpublic⟩
      rw [if_pos ⟨hpublic, rfl⟩]
  signs := by
    rintro publicKey secretKey ⟨rfl, hlength⟩
    exact ⟨hlength, fun message => ⟨publicKey ++ message, if_pos hlength⟩⟩
  generates := ⟨[1], [1], rfl, rfl⟩

/-- The votes of a chain. -/
def votesOn (chainId : ChainId) (fits : chainId.utf8ByteSize < 2 ^ 64) : Context :=
  ⟨.consensusVote, chainId, fits⟩

/-- The validator's prevote for no block. -/
def nilPrevote : Vote :=
  { height := 1, round := 0, step := .prevote, blockHash := 0, publicKey := [1], signature := []
    validatorAddress := hashBytes ("zeno.address.v1".toUTF8.toList ++ [1]) }

/-- The signature of the prevote. -/
def nilSignature : Bytes := [1] ++ domainMessage .consensusVote nilPrevote.signedBytes

lemma signed_nilPrevote : Signed spelled (votesOn "zeno" (by decide +kernel))
    nilPrevote.signedBytes [1] nilSignature := by
  have hsigns : signVote (mlDsaScheme spelled) nilPrevote [1] =
      .ok { nilPrevote with signature := nilSignature } := rfl
  exact .vote rfl hsigns

/-- Signed on one chain, the prevote is refused as a transaction of another one. -/
theorem vote_refused_as_transaction :
    Signed spelled (votesOn "zeno" (by decide +kernel)) nilPrevote.signedBytes [1] nilSignature ∧
      ¬ Accepts spelled ⟨.transaction, "zeno-test", by decide +kernel⟩ nilSignature := by
  have hkinds : votesOn "zeno" (by decide +kernel) ≠
      ⟨.transaction, "zeno-test", by decide +kernel⟩ := fun h => by cases congrArg Context.kind h
  exact ⟨signed_nilPrevote, (signed_refused_iff spelled_ideal hkinds).mpr (fun h => by cases h.2)
    _ _ _ signed_nilPrevote⟩

/-- Signed on one chain, the prevote is recorded on another one. -/
theorem nilPrevote_carries_over : spelled.Ideal ∧
    votesOn "zeno" (by decide +kernel) ≠ votesOn "zeno-test" (by decide +kernel) ∧
    Signed spelled (votesOn "zeno" (by decide +kernel)) nilPrevote.signedBytes [1]
      ([1] ++ domainMessage .consensusVote nilPrevote.signedBytes) ∧
    Accepts spelled (votesOn "zeno-test" (by decide +kernel))
      ([1] ++ domainMessage .consensusVote nilPrevote.signedBytes) := by
  have hsigns : signVote (mlDsaScheme spelled) nilPrevote [1] =
      .ok { nilPrevote with signature := nilSignature } := rfl
  have hchains : ("zeno" : ChainId) ≠ "zeno-test" := by decide
  exact ⟨spelled_ideal, fun h => hchains (congrArg Context.chainId h), signed_nilPrevote,
    accepts_vote spelled_ideal ⟨rfl, rfl⟩ rfl hsigns rfl⟩

end

end ZenoChain
