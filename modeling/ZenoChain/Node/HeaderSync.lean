/-
# Headers for sync

A node that is behind asks a peer for headers, checks that they continue its own chain, and
then asks for the blocks.  The parent hash of a header is the hash of the whole parent block,
but the check compares it with the hash of the parent's header, from the second header on.
-/
import ZenoChain.Execution.Chain

namespace ZenoChain

open Word

/-- Block sync request. -/
inductive SyncRequest
  | headers (startHeight limit : ℕ)
  | blockByHeight (height : ℕ)
  | blockByHash (hash : Hash32)
deriving DecidableEq, Repr

/-- Block sync response. -/
inductive SyncResponse
  | headers (headers : List BlockHeader)
  | block (block : Option FinalizedBlock)
  | notFound
deriving DecidableEq, Repr

/-- A request for headers that waits for its answer. -/
structure PendingHeadersRequest where
  requestId : ℕ
  startHeight : ℕ
  limit : ℕ
deriving DecidableEq, Repr

namespace Store

/-- The height of the latest block, or zero. -/
def latestHeight (s : Store) : ℕ := (s.latestBlock.map fun b => b.block.header.height).getD 0

/-- The headers of some heights, up to the first one that is not stored. -/
def headersFrom (s : Store) : ℕ → ℕ → List BlockHeader
  | 0, _ => []
  | n + 1, height =>
    match s.blocksByHeight[height]? with
    | none => []
    | some b => b.block.header :: headersFrom s n (height + 1)

/-- What a node answers to a request. -/
def buildSyncResponse (s : Store) : SyncRequest → SyncResponse
  | .headers startHeight limit =>
    let limit := max 1 (min limit 256)
    .headers (s.headersFrom (saturatingAdd 64 startHeight limit - startHeight) startHeight)
  | .blockByHeight height => .block s.blocksByHeight[height]?
  | .blockByHash hash => .block s.blocksByHash[hash]?

end Store

section

variable [Hashing]

/-- The loop of `validate_header_batch`, from the index of a header, its expected height and the
hash of the header before it.  The clock is read for every header. -/
def validateHeaders (chainId : ChainId) (latestHash : Hash32) (nowMs : ℕ → ℕ) :
    ℕ → ℕ → Hash32 → List BlockHeader → Except String (List ℕ)
  | _, _, _, [] => .ok []
  | index, expectedHeight, prevHash, header :: headers =>
    if header.chainId ≠ chainId then .error "sync header chain id mismatch"
    else if header.height ≠ expectedHeight then .error "sync header range is not contiguous"
    else if index = 0 ∧ header.parentHash ≠ latestHash then
      .error "sync first header parent hash mismatch"
    else if 0 < index ∧ header.parentHash ≠ prevHash then
      .error ("sync header parent hash chain broken at height " ++ toString header.height)
    else if saturatingAdd 64 (nowMs index) 600000 < header.timestampMs then
      .error "sync header timestamp too far in future"
    else
      match validateHeaders chainId latestHash nowMs (index + 1) (saturatingAdd 64 expectedHeight 1)
        (hashBytes header.encode) headers with
      | .error err => .error err
      | .ok heights => .ok (header.height :: heights)

/-- Checks that the headers of a response continue the stored chain, and returns their heights. -/
def validateHeaderBatch (chainId : ChainId) (store : Store) (nowMs : ℕ → ℕ) (localHeight : ℕ)
    (headers : List BlockHeader) (pending : PendingHeadersRequest) : Except String (List ℕ) :=
  if headers = [] then .ok []
  else if pending.limit < headers.length then .error "sync header response exceeds requested limit"
  else
    let latestHash := (store.latestBlock.map fun b => b.block.hash).getD 0
    validateHeaders chainId latestHash nowMs 0
      (max pending.startHeight (saturatingAdd 64 localHeight 1)) latestHash headers

variable {chainId : ChainId} {latestHash prevHash : Hash32} {nowMs : ℕ → ℕ} {index expected : ℕ}

/-- What it takes for a header to be accepted. -/
lemma validateHeaders_cons_ok {header : BlockHeader} {headers : List BlockHeader}
    {heights : List ℕ} :
    validateHeaders chainId latestHash nowMs index expected prevHash (header :: headers) =
        .ok heights ↔
      (header.chainId = chainId ∧ header.height = expected ∧
        (index = 0 → header.parentHash = latestHash) ∧
        (0 < index → header.parentHash = prevHash) ∧
        header.timestampMs ≤ saturatingAdd 64 (nowMs index) 600000) ∧
      ∃ rest, validateHeaders chainId latestHash nowMs (index + 1) (saturatingAdd 64 expected 1)
          (hashBytes header.encode) headers = .ok rest ∧ heights = header.height :: rest := by
  rw [validateHeaders]
  constructor
  · intro h
    split_ifs at h with hchain hheight hfirst hlater hclock
    rw [not_not] at hchain hheight
    rw [not_and_not_right] at hfirst hlater
    refine ⟨⟨hchain, hheight, hfirst, hlater, Nat.not_lt.mp hclock⟩, ?_⟩
    rcases hrest : validateHeaders chainId latestHash nowMs (index + 1)
        (saturatingAdd 64 expected 1) (hashBytes header.encode) headers with err | rest
    · rw [hrest] at h
      cases h
    · rw [hrest] at h
      exact ⟨rest, rfl, (Except.ok.inj h).symm⟩
  · rintro ⟨⟨hchain, hheight, hfirst, hlater, hclock⟩, rest, hrest, rfl⟩
    rw [if_neg (not_not.mpr hchain), if_neg (not_not.mpr hheight),
      if_neg (not_and_not_right.mpr hfirst), if_neg (not_and_not_right.mpr hlater),
      if_neg (Nat.not_lt.mpr hclock), hrest]

/-! ## Stored chains -/

/-- The store holds a valid chain, apart from the blocks up to some height, which have been pruned. -/
structure Store.HasChain (s : Store) (e : ExecutionEngine) (chain : List FinalizedBlock)
    (pruned : ℕ) : Prop where
  valid : ValidChain e chain
  latest : s.latestBlock = chain.getLast?
  byHeight : ∀ height, s.blocksByHeight[height]? =
    if height ≤ pruned then none else chain[height - 1]?

variable {e : ExecutionEngine} {chain : List FinalizedBlock}

/-- In a valid chain the block at each place follows the one before it. -/
lemma ValidChain.follows (h : ValidChain e chain) {i : ℕ} {b : FinalizedBlock}
    (hb : chain[i]? = some b) : Follows e (chain.take i).getLast? b.block := by
  induction h with
  | nil => simp at hb
  | @snoc chain finalized hchain hfollows ih =>
    rcases Nat.lt_or_ge i chain.length with hlt | hge
    · rw [List.getElem?_append_left hlt] at hb
      rw [List.take_append_of_le_length hlt.le]
      exact ih hb
    · have hi : i = chain.length := by
        have hbound := (List.getElem?_eq_some_iff.mp hb).1
        rw [List.length_append, List.length_singleton] at hbound
        omega
      subst hi
      rw [List.getElem?_concat_length] at hb
      obtain rfl := Option.some.inj hb
      rw [List.take_left]
      exact hfollows

namespace Store.HasChain

variable {s : Store} {pruned : ℕ}

/-- The local height is the length of the chain. -/
lemma latestHeight (h : s.HasChain e chain pruned) : s.latestHeight = chain.length := by
  have hlast := h.valid.height_getLast
  rw [Store.latestHeight, h.latest]
  rcases hchain : chain.getLast? with _ | b
  · rw [List.getLast?_eq_none_iff.mp hchain]
    rfl
  · rw [hchain] at hlast
    exact Nat.succ.inj hlast

/-- The headers that a node serves are those of its chain. -/
lemma headersFrom (h : s.HasChain e chain pruned) (n : ℕ) {height : ℕ} (hheight : pruned < height) :
    s.headersFrom n height = ((chain.drop (height - 1)).take n).map fun b => b.block.header := by
  induction n generalizing height with
  | zero => rfl
  | succ n ih =>
    have hnext : s.headersFrom n (height + 1) =
        ((chain.drop (height + 1 - 1)).take n).map fun b => b.block.header := ih (by omega)
    rw [Store.headersFrom, h.byHeight, if_neg (by omega)]
    rcases hb : chain[height - 1]? with _ | b
    · rw [List.drop_eq_nil_of_le (List.getElem?_eq_none_iff.mp hb)]
      rfl
    · obtain ⟨hlt, hget⟩ := List.getElem?_eq_some_iff.mp hb
      have hdrop : chain.drop (height - 1) = b :: chain.drop height := by
        rw [List.drop_eq_getElem_cons hlt, hget, Nat.sub_add_cancel (by omega)]
      rw [hdrop, List.take_succ_cons, List.map_cons]
      simp only
      rw [hnext, Nat.add_sub_cancel]

lemma headersFrom_pruned (h : s.HasChain e chain pruned) (n : ℕ) {height : ℕ}
    (hheight : height ≤ pruned) : s.headersFrom n height = [] := by
  cases n with
  | zero => rfl
  | succ n => rw [Store.headersFrom, h.byHeight, if_pos hheight]

end Store.HasChain

/-! ## Which batches are accepted -/

omit [Hashing] in
/-- The encoding of a block is longer than that of its header. -/
lemma length_header_lt (b : Block) : b.header.encode.length < b.encode.length := by
  rw [Block.encode, Codec.bytes, Codec.bytes, Codec.seq]
  simp only [List.length_append, Codec.u64, Codec.length_leBytes]
  omega

/-- No block of a list collides with its own header. -/
def HeadersApart (blocks : List FinalizedBlock) : Prop :=
  ∀ b ∈ blocks, hashBytes b.block.encode = hashBytes b.block.header.encode →
    b.block.encode = b.block.header.encode

variable {r : Store} {pruned : ℕ} {more : List FinalizedBlock}

/-- A single header that follows the chain is accepted. -/
lemma validateHeaderBatch_one (hr : r.HasChain e chain pruned) {b : FinalizedBlock}
    (hfollows : Follows e chain.getLast? b.block)
    (hclock : b.block.header.timestampMs ≤ saturatingAdd 64 (nowMs 0) 600000)
    (hroom : chain.length + 1 < 2 ^ 64) {limit : ℕ} (hlimit : 1 ≤ limit) (requestId : ℕ) :
    validateHeaderBatch e.chainId r nowMs chain.length [b.block.header]
      ⟨requestId, chain.length + 1, limit⟩ = .ok [b.block.header.height] := by
  have hheight : b.block.header.height = chain.length + 1 := by
    rw [hfollows.height, hr.valid.height_getLast]
  have hexpected : max (chain.length + 1) (saturatingAdd 64 chain.length 1) = chain.length + 1 := by
    rw [saturatingAdd_of_lt hroom, Nat.max_self]
  have hparent : b.block.header.parentHash =
      (r.latestBlock.map fun b => b.block.hash).getD 0 := by
    rw [hr.latest, hfollows.parent]
  rw [validateHeaderBatch, if_neg (List.cons_ne_nil _ _)]
  simp only [List.length_singleton, hexpected]
  rw [if_neg (Nat.not_lt.mpr hlimit)]
  exact validateHeaders_cons_ok.mpr ⟨⟨hfollows.chainId, hheight, fun _ => hparent,
    fun h => absurd h (lt_irrefl 0), hclock⟩, [], rfl, rfl⟩

/-- A second header is refused: its parent hash is that of a block, not of a header. -/
lemma validateHeaderBatch_two {a b : FinalizedBlock} {headers : List BlockHeader}
    (hparent : b.block.header.parentHash = a.block.hash) (hapart : HeadersApart [a])
    (localHeight : ℕ) (pending : PendingHeadersRequest) (heights : List ℕ) :
    validateHeaderBatch chainId r nowMs localHeight
      (a.block.header :: b.block.header :: headers) pending ≠ .ok heights := by
  have hbroken : b.block.header.parentHash ≠ hashBytes a.block.header.encode := by
    intro heq
    rw [hparent] at heq
    have hlength := congrArg List.length (hapart a (List.mem_singleton_self a) heq)
    exact absurd hlength (length_header_lt a.block).ne'
  intro hok
  rw [validateHeaderBatch, if_neg (List.cons_ne_nil _ _)] at hok
  split at hok
  · cases hok
  · obtain ⟨-, rest, hrest, -⟩ := validateHeaders_cons_ok.mp hok
    obtain ⟨⟨-, -, -, hlater, -⟩, -⟩ := validateHeaders_cons_ok.mp hrest
    exact hbroken (hlater Nat.one_pos)

/-- **Honest headers** from the height after its own are accepted by a node, with their heights in
order, exactly if there is at most one of them: only one is asked for, the peer is only one block
ahead, it has pruned the next block, or heights end there. -/
theorem honest_headers_accepted_iff {s : Store} {pruned' : ℕ} (hr : r.HasChain e chain pruned)
    (hs : s.HasChain e (chain ++ more) pruned') (hahead : more ≠ [])
    (hheights : (chain ++ more).length < 2 ^ 64) (hapart : HeadersApart more)
    (hclock : ∀ b ∈ more, ∀ i, b.block.header.timestampMs ≤ saturatingAdd 64 (nowMs i) 600000)
    {limit : ℕ} (hlimit : 1 ≤ limit) (hlimit' : limit ≤ 32) (requestId : ℕ) :
    (∃ headers,
      s.buildSyncResponse (.headers (r.latestHeight + 1) limit) = .headers headers ∧
      validateHeaderBatch e.chainId r nowMs r.latestHeight headers
        ⟨requestId, r.latestHeight + 1, limit⟩ = .ok (headers.map fun h => h.height)) ↔
    limit = 1 ∨ more.length = 1 ∨ r.latestHeight < pruned' ∨ 2 ^ 64 - 1 ≤ r.latestHeight + 2 := by
  obtain ⟨a, later, rfl⟩ := List.exists_cons_of_ne_nil hahead
  rw [List.length_append, List.length_cons] at hheights
  have hfirst : Follows e chain.getLast? a.block := by
    have hget : (chain ++ a :: later)[chain.length]? = some a := by simp
    simpa using hs.valid.follows hget
  -- How many headers the peer looks up.
  set n := min limit (2 ^ 64 - 1 - (chain.length + 1)) with hn
  have hresponse : s.buildSyncResponse (.headers (r.latestHeight + 1) limit) =
      .headers (s.headersFrom n (chain.length + 1)) := by
    have hclamp : max 1 (min limit 256) = limit := by omega
    have hcount : saturatingAdd 64 (chain.length + 1) limit - (chain.length + 1) = n := by
      rw [saturatingAdd, maxValue]
      omega
    rw [Store.buildSyncResponse, hr.latestHeight, hclamp, hcount]
  rw [hresponse, hr.latestHeight]
  rcases Nat.lt_or_ge chain.length pruned' with hpruned | hpruned
  · -- The peer has pruned the next block and answers with nothing.
    rw [hs.headersFrom_pruned n hpruned]
    exact iff_of_true ⟨[], rfl, rfl⟩ (.inr (.inr (.inl hpruned)))
  · have hheaders := hs.headersFrom n (Nat.lt_succ_of_le hpruned)
    rw [Nat.succ_sub_one, List.drop_left] at hheaders
    rw [hheaders]
    constructor
    · rintro ⟨headers, hsent, haccepted⟩
      obtain rfl := SyncResponse.headers.inj hsent
      by_contra hmany
      -- There is a second header.
      obtain ⟨m, hm⟩ : ∃ m, n = m + 2 := ⟨n - 2, by omega⟩
      obtain ⟨b, rest, rfl⟩ := List.exists_cons_of_ne_nil (show later ≠ [] by
        rintro rfl
        exact hmany (.inr (.inl rfl)))
      have hsecond : Follows e (some a) b.block := by
        have hget : (chain ++ a :: b :: rest)[chain.length + 1]? = some b := by simp
        have hfollows := hs.valid.follows hget
        rwa [List.take_length_add_append, List.take_succ_cons, List.take_zero,
          List.getLast?_concat] at hfollows
      rw [hm] at haccepted
      exact validateHeaderBatch_two hsecond.parent
        (fun x hx => hapart x (by simp [List.mem_singleton.mp hx])) _ _ _ haccepted
    · intro hfew
      refine ⟨_, rfl, ?_⟩
      -- There is no second header.
      rcases Nat.eq_zero_or_pos n with hzero | hpos
      · rw [hzero]
        rfl
      · have hone : (a :: later).take n = [a] := by
          obtain ⟨m, hm⟩ : ∃ m, n = m + 1 := ⟨n - 1, by omega⟩
          rw [hm, List.take_succ_cons]
          rcases Nat.eq_zero_or_pos m with rfl | hm'
          · rfl
          · have hnone : later.length = 0 := by
              rw [List.length_cons] at hfew
              omega
            rw [List.eq_nil_of_length_eq_zero hnone, List.take_nil]
        rw [hone]
        exact validateHeaderBatch_one hr hfirst (hclock a List.mem_cons_self 0) (by omega) hlimit _

end

/-! ## A peer two blocks ahead -/

section

open Transparent

/-- An empty block of the chain `zeno`. -/
def emptyBlockAt (height : ℕ) (parentHash : Hash32) : FinalizedBlock :=
  uncertified (sealBlock
    { height, round := 0, chainId := "zeno", parentHash, txRoot := 0, stateRoot := 0
      receiptRoot := 0, proposer := 0, timestampMs := 0 } [] [2]) []

/-- The first two blocks of a chain. -/
def firstTwo : List FinalizedBlock :=
  [emptyBlockAt 1 0, emptyBlockAt 2 (emptyBlockAt 1 0).block.hash]

/-- A peer that stores them. -/
def peerStore : Store :=
  { backend := .rocks, metaLatest := firstTwo.getLast?
    blocksByHeight := (∅ : BTreeMap ℕ FinalizedBlock).insert 1 (emptyBlockAt 1 0)
      |>.insert 2 (emptyBlockAt 2 (emptyBlockAt 1 0).block.hash) }

lemma peerStore_hasChain : peerStore.HasChain devnet firstTwo 0 := by
  refine ⟨?_, rfl, fun height => ?_⟩
  · have hone : ValidChain devnet ([] ++ [emptyBlockAt 1 0]) := .snoc .nil ⟨rfl, rfl, rfl⟩
    exact .snoc hone ⟨rfl, rfl, rfl⟩
  · rw [peerStore, Table.getElem?_insert, Table.getElem?_insert]
    rcases height with _ | _ | _ | height
    · rfl
    · rfl
    · rfl
    · rfl

lemma emptyStore_hasChain : Store.HasChain { backend := .rocks } devnet [] 0 := by
  refine ⟨.nil, rfl, fun height => ?_⟩
  split
  · rfl
  · rfl

lemma firstTwo_apart : HeadersApart firstTwo := by
  refine List.forall_mem_cons.mpr ⟨fun h => ?_, List.forall_mem_singleton.mpr fun h => ?_⟩
  · exact absurd h (by decide +kernel)
  · exact absurd h (by decide +kernel)

/-- A node without blocks refuses the headers of the peer. -/
theorem honest_headers_refused :
    Store.HasChain { backend := .rocks } devnet [] 0 ∧ peerStore.HasChain devnet firstTwo 0 ∧
    HeadersApart firstTwo ∧
    ∃ headers, peerStore.buildSyncResponse (.headers 1 2) = .headers headers ∧
      validateHeaderBatch "zeno" { backend := .rocks } (fun _ => 0) 0 headers ⟨7, 1, 2⟩ =
        .error "sync header parent hash chain broken at height 2" := by
  refine ⟨emptyStore_hasChain, peerStore_hasChain, firstTwo_apart,
    firstTwo.map fun b => b.block.header, rfl, ?_⟩
  decide +kernel

/-- Asked for a single header, the node accepts it. -/
theorem single_header_accepted :
    ∃ headers, peerStore.buildSyncResponse (.headers 1 1) = .headers headers ∧
      validateHeaderBatch "zeno" { backend := .rocks } (fun _ => 0) 0 headers ⟨7, 1, 1⟩ =
        .ok (headers.map fun h => h.height) := by
  refine (honest_headers_accepted_iff emptyStore_hasChain peerStore_hasChain
    (List.cons_ne_nil _ _) (by decide) firstTwo_apart (fun b hb i => ?_) le_rfl (by decide)
    7).mpr (.inl rfl)
  rcases List.mem_pair.mp hb with rfl | rfl
  · exact Nat.zero_le _
  · exact Nat.zero_le _

end

end ZenoChain
