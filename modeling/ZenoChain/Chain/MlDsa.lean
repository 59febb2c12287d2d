/-
# The signature scheme of the chain

The scheme signs a message together with the tag of its domain, by a library for post-quantum
signatures.  The tags are texts and are closed by a byte that is in no text, so a signed byte string
tells its domain and its message; and the bytes of transactions and headers tell their chain.
-/
import ZenoChain.Chain.Hash
import ZenoChain.Chain.Primitives

namespace ZenoChain

/-- The third-party signature library, for one set of parameters.  Keys and signatures of the wrong
form are refused with an error. -/
structure Sig where
  /-- The length of a public key. -/
  lengthPublicKey : ℕ
  /-- A public key and a secret key that were generated together. -/
  IsKeypair : Bytes → Bytes → Prop
  sign : Bytes → Bytes → Except CryptoError Bytes
  verify : Bytes → Bytes → Bytes → Except CryptoError Unit

/-- A signature verifies exactly for the bytes that were signed and the key of the signer, and
generated keys sign. -/
structure Sig.Ideal (sig : Sig) : Prop where
  exact : ∀ {message secretKey signature message' publicKey : Bytes},
    sig.sign message secretKey = .ok signature →
    (sig.verify message' signature publicKey = .ok () ↔
      message' = message ∧ sig.IsKeypair publicKey secretKey)
  signs : ∀ {publicKey secretKey : Bytes}, sig.IsKeypair publicKey secretKey →
    publicKey.length = sig.lengthPublicKey ∧
      ∀ message, ∃ signature, sig.sign message secretKey = .ok signature
  generates : ∃ publicKey secretKey, sig.IsKeypair publicKey secretKey

/-- Returns the canonical domain tag. -/
def SigningDomain.tag : SigningDomain → Bytes
  | transaction => "zeno.tx.v1".toUTF8.toList
  | blockProposal => "zeno.block_proposal.v1".toUTF8.toList
  | consensusVote => "zeno.consensus_vote.v1".toUTF8.toList

/-- The bytes that are signed for a message of a domain. -/
def domainMessage (domain : SigningDomain) (message : Bytes) : Bytes :=
  domain.tag ++ 0xff :: message

/-- ML-DSA provider backed by the library. -/
def mlDsaScheme [Hashing] (sig : Sig) : SignatureScheme :=
  { sign := fun domain message secretKey => sig.sign (domainMessage domain message) secretKey
    verify := fun domain message publicKey signature =>
      sig.verify (domainMessage domain message) signature publicKey
    deriveAddress := fun publicKey =>
      if publicKey.length ≠ sig.lengthPublicKey then .error .malformedKey
      else .ok (hashBytes ("zeno.address.v1".toUTF8.toList ++ publicKey)) }

/-- Signs a transaction body and returns a complete transaction. -/
def signTransaction (scheme : SignatureScheme) (body : TransactionBody)
    (publicKey secretKey : Bytes) : Except String Transaction :=
  match scheme.sign .transaction body.encode secretKey with
  | .ok signature => .ok { body, publicKey, signature }
  | .error err => .error err.toText

/-! ## What signed bytes tell -/

/-- No text has the separating byte. -/
lemma separator_notMem_tag (domain : SigningDomain) : (0xff : UInt8) ∉ domain.tag := by
  cases domain <;> decide +kernel

lemma tag_inj {domain domain' : SigningDomain} (h : domain.tag = domain'.tag) :
    domain = domain' := by
  revert h
  cases domain <;> cases domain' <;> decide +kernel

/-- **Domain separation.** -/
theorem domainMessage_inj {domain domain' : SigningDomain} {message message' : Bytes}
    (h : domainMessage domain message = domainMessage domain' message') :
    domain = domain' ∧ message = message' := by
  obtain ⟨htag, hmessage⟩ :=
    append_separator_inj (separator_notMem_tag domain) (separator_notMem_tag domain') h
  exact ⟨tag_inj htag, hmessage⟩

/-- The loop that lists the bytes of an array. -/
lemma byteArray_loop_eq (b : ByteArray) (i : ℕ) (l : List UInt8) :
    ByteArray.toList.loop b i l = l.reverse ++ b.data.toList.drop i := by
  fun_induction ByteArray.toList.loop b i l with
  | case1 i l hlt ih =>
    have hi : i < b.data.toList.length := hlt
    have hget : b.get! i = b.data.toList[i] := by
      rw [Array.getElem_toList]
      exact getElem!_pos b.data i hlt
    rw [ih, List.reverse_cons, List.append_assoc, List.drop_eq_getElem_cons hi, hget]
    rfl
  | case2 i l hge => rw [List.drop_eq_nil_of_le (Nat.le_of_not_lt hge), List.append_nil]

lemma byteArray_toList_eq (b : ByteArray) : b.toList = b.data.toList := byteArray_loop_eq b 0 []

/-- The bytes of a text begin with their number, so that they tell where they end. -/
lemma str_append_inj {a b : String} {x y : Bytes} (ha : a.utf8ByteSize < 2 ^ 64)
    (hb : b.utf8ByteSize < 2 ^ 64) (h : Codec.str a ++ x = Codec.str b ++ y) : a = b := by
  have hlength : ∀ s : String, s.toUTF8.toList.length = s.utf8ByteSize := fun s => by
    rw [byteArray_toList_eq]
    rfl
  simp only [Codec.str, Codec.bytes, List.append_assoc] at h
  obtain ⟨hsize, hrest⟩ := List.append_inj h (by simp [Codec.u64])
  have hsame := Codec.leBytes_inj hsize (by rw [hlength]; exact ha) (by rw [hlength]; exact hb)
  obtain ⟨htext, -⟩ := List.append_inj hrest hsame
  rw [byteArray_toList_eq, byteArray_toList_eq, Array.toList_inj] at htext
  exact String.toByteArray_inj.mp (ByteArray.ext htext)

/-- The signed bytes of a transaction tell its chain. -/
lemma TransactionBody.chainId_of_encode_eq {body body' : TransactionBody}
    (hsize : body.chainId.utf8ByteSize < 2 ^ 64) (hsize' : body'.chainId.utf8ByteSize < 2 ^ 64)
    (h : body.encode = body'.encode) : body.chainId = body'.chainId := by
  simp only [TransactionBody.encode, List.append_assoc] at h
  exact str_append_inj hsize hsize' h

/-- The signed bytes of a header tell its chain. -/
lemma BlockHeader.chainId_of_encode_eq {header header' : BlockHeader}
    (hsize : header.chainId.utf8ByteSize < 2 ^ 64) (hsize' : header'.chainId.utf8ByteSize < 2 ^ 64)
    (h : header.encode = header'.encode) : header.chainId = header'.chainId := by
  simp only [BlockHeader.encode, List.append_assoc] at h
  obtain ⟨-, h⟩ := List.append_inj h (by simp [Codec.u64])
  obtain ⟨-, h⟩ := List.append_inj h (by simp [Codec.u32])
  exact str_append_inj hsize hsize' h

end ZenoChain
