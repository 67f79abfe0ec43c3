/-
  Divachain.Net.Startup — the blockchain while the server starts.

  `Server.start` makes the blockchain first: `init` replays the stored blocks
  while `network` is still the empty object.  Each replayed block goes through
  the stake vote of `updateCache`, and a stake vote that has somebody to
  propose asks the server, which asks the network.  Nobody is there yet.

  Main result: a restart completes if and only if no block after the genesis
  block has a hash that starts a stake vote.
-/
import Divachain.Chain.Agreement
import Divachain.Net.Node

namespace Divachain

open DataKit

/-! ## §1. The server before its network. -/

/-- What a stake proposal needs of the server: the proposals stacked so far,
and the number of peers online once there is a network. -/
structure Server where
  stackModifyStake : List Command
  countOnline : Option Nat

namespace Server

/-- A server whose `network` is the empty object still. -/
def new : Server := ⟨[], none⟩

/-- What `proposeModifyStake` returns; `none` where it throws, because the
empty object has no `getArrayOnline`. -/
def proposeModifyStake (s : Server) (publicKey ident : Text) : Option Bool :=
  if s.stackModifyStake.any (Node.proposes publicKey ident) then some false
  else s.countOnline.map fun _ => true

end Server

namespace Blockchain

/-- `updateCache` with the server that is there. -/
def updateCacheAt (s : Server) (c : Blockchain) (b : BlockStruct) : Option Blockchain :=
  let c := (c.cacheBlock b).countVotes b
  match c.stakeVote b with
  | .skip => some c
  | .throws => none
  | .propose publicKey =>
      (s.proposeModifyStake publicKey STAKE_VOTE_IDENT).map fun answer =>
        if answer then c.dropVote publicKey else c

/-- The loop of `init` with the server that is there. -/
def replayAt (s : Server) : Blockchain → List BlockStruct → Option Blockchain
  | c, [] => some c
  | c, b :: bs =>
      let r := c.toLedger.processState b.tx
      match c.updateCacheAt s { b with tx := r.2 } with
      | some c' => replayAt s (c'.setLedger r.1) bs
      | none => none

def initAt (s : Server) (c : Blockchain) : Option Blockchain :=
  c.rewind.replayAt s c.dbBlockchain.values

/-- A new instance over a store, before `init`. -/
def withStore (publicKey : Text) (maxBlocks : Nat) (dbBlockchain : Store Nat BlockStruct) :
    Blockchain :=
  { fresh publicKey maxBlocks with dbBlockchain := dbBlockchain }

end Blockchain

/-- `Server.start` up to the initialized blockchain, without bootstrapping. -/
def Server.start (crypto : Crypto) (s : Server) (file : BlockStruct) (c : Blockchain) :
    Option Blockchain :=
  match c.initAt s with
  | none => none
  | some c' =>
      -- an empty store: the genesis block is read from its file
      if c'.height = 0 then
        (c'.clear.putBlock 1 (Blockchain.genesis crypto file)).initAt s
      else some c'

namespace Blockchain

/-! ## §2. With nobody to ask, every stake vote throws. -/

/-- What the server answers does not matter where no stake vote comes up. -/
theorem replay_of_replayAt (answers : Nat → Bool) :
    ∀ {c c' : Blockchain} {bs : List BlockStruct},
      c.replayAt .new bs = some c' → c.replay answers bs = some c'
  | c, c', [], h => h
  | c, c', b :: bs, h => by
      unfold replayAt at h
      dsimp only at h
      split at h
      next d hcache =>
        have hrest := replay_of_replayAt answers h
        -- On the skip branch no proposal is made, so the answer is never asked for.
        have hsame : c.updateCache (answers b.height)
            { b with tx := (c.toLedger.processState b.tx).2 } = some d := by
          unfold updateCacheAt at hcache
          unfold updateCache
          dsimp only at hcache ⊢
          split at hcache
          next hvote =>
            rw [hvote]
            exact hcache
          next => exact nomatch hcache
          next => exact nomatch hcache
        unfold replay
        dsimp only
        rw [hsame]
        exact hrest
      next => exact nomatch h

/-- The hash starts no stake vote. -/
def FewSameChars (b : BlockStruct) : Prop :=
  sameChars b.hash b.height < STAKE_VOTE_MATCH_THRESHOLD

instance (b : BlockStruct) : Decidable (FewSameChars b) :=
  inferInstanceAs (Decidable (_ < _))

/-- **Once votes are counted, a hash decides.** -/
theorem updateCacheAt_isSome_iff {c : Blockchain} {b : BlockStruct}
    (hvotes : (c.countVotes b).mapVoteStake.size ≠ 0) :
    (c.updateCacheAt .new b).isSome = true ↔ FewSameChars b := by
  have hsize : ((c.cacheBlock b).countVotes b).mapVoteStake.size ≠ 0 := hvotes
  have hvote : ((c.cacheBlock b).countVotes b).stakeVote b = .skip ↔ FewSameChars b := by
    unfold stakeVote
    rw [if_neg hsize]
    -- Beyond the threshold the vote is either proposed or throws; a node that is being
    -- built survives neither.
    by_cases hfew : sameChars b.hash b.height < STAKE_VOTE_MATCH_THRESHOLD
    · rw [if_pos hfew]
      exact iff_of_true rfl hfew
    · rw [if_neg hfew]
      refine iff_of_false ?_ hfew
      dsimp only
      split <;> exact fun h => nomatch h
  rw [← hvote]
  unfold updateCacheAt
  dsimp only
  cases ((c.cacheBlock b).countVotes b).stakeVote b with
  | skip => exact iff_of_true rfl rfl
  | throws => exact iff_of_false Bool.false_ne_true fun h => nomatch h
  | propose publicKey => exact iff_of_false Bool.false_ne_true fun h => nomatch h

theorem size_set_ne_zero (m : OrdMap Text Nat) (k : Text) (v : Nat) : (m.set k v).size ≠ 0 := by
  intro hzero
  have hnil : (m.set k v).entries = [] := List.eq_nil_of_length_eq_zero hzero
  have hmem : (k, v) ∈ (m.set k v).entries :=
    (OrdMap.get?_eq_some_iff _ _ _).mp (OrdMap.get?_set_self m k v)
  rw [hnil] at hmem
  exact nomatch hmem

/-- Counting a vote takes nobody out. -/
theorem size_countVote_ne_zero {l : Ledger} {m : OrdMap Text Nat} {v : VoteStruct}
    (h : m.size ≠ 0 ∨ l.hasPeer v.origin = true) : (countVote l m v).size ≠ 0 := by
  unfold countVote
  split
  next => exact size_set_ne_zero _ _ _
  next hpeer =>
    rcases h with h | h
    · exact h
    · exact absurd h hpeer

theorem size_countVotes_ne_zero {l : Ledger} :
    ∀ {votes : List VoteStruct} {m : OrdMap Text Nat},
      m.size ≠ 0 ∨ (∃ v ∈ votes, l.hasPeer v.origin = true) →
        (votes.foldl (countVote l) m).size ≠ 0
  | [], m, h => by
      rcases h with h | ⟨v, hv, -⟩
      · exact h
      · exact nomatch hv
  | v :: votes, m, h => by
      rw [List.foldl_cons]
      apply size_countVotes_ne_zero
      rcases h with h | ⟨w, hw, hpeer⟩
      · exact Or.inl (size_countVote_ne_zero (Or.inl h))
      · rcases List.mem_cons.mp hw with rfl | hw
        · exact Or.inl (size_countVote_ne_zero (Or.inr hpeer))
        · exact Or.inr ⟨w, hw, hpeer⟩

/-- A counted vote stays, however the cache goes on. -/
theorem mapVoteStake_updateCacheAt {c d : Blockchain} {b : BlockStruct}
    (h : c.updateCacheAt .new b = some d) : d.mapVoteStake = (c.countVotes b).mapVoteStake := by
  unfold updateCacheAt at h
  dsimp only at h
  split at h
  · obtain rfl := Option.some.inj h
    rfl
  · exact nomatch h
  · exact nomatch h

/-- **The rest of a replay**, from the first block on whose votes count. -/
theorem replayAt_isSome_iff :
    ∀ {c : Blockchain} {bs : List BlockStruct},
      (∀ b ∈ bs.head?, (c.countVotes b).mapVoteStake.size ≠ 0) →
        ((c.replayAt .new bs).isSome = true ↔ ∀ b ∈ bs, FewSameChars b)
  | c, [], _ => iff_of_true rfl fun b hb => nomatch hb
  | c, b :: bs, hvotes => by
      set b' : BlockStruct := { b with tx := (c.toLedger.processState b.tx).2 } with hb'
      have hsize : (c.countVotes b').mapVoteStake.size ≠ 0 := hvotes b rfl
      have hfirst : (c.updateCacheAt .new b').isSome = true ↔ FewSameChars b :=
        updateCacheAt_isSome_iff hsize
      rw [List.forall_mem_cons, ← hfirst]
      unfold replayAt
      dsimp only
      rw [← hb']
      cases hcache : c.updateCacheAt .new b' with
      | none => exact iff_of_false Bool.false_ne_true fun h => Bool.false_ne_true h.1
      | some d =>
          -- Votes once counted stay counted, so the table is not empty for the blocks after.
          have hnext : ∀ b₂ ∈ bs.head?,
              ((d.setLedger (c.toLedger.processState b.tx).1).countVotes b₂).mapVoteStake.size ≠ 0 := by
            intro b₂ _
            refine size_countVotes_ne_zero (Or.inl ?_)
            show d.mapVoteStake.size ≠ 0
            rw [mapVoteStake_updateCacheAt hcache]
            exact hsize
          have hrest := replayAt_isSome_iff hnext
          rw [hrest]
          exact ⟨fun h => ⟨rfl, h⟩, fun h => h.2⟩

/-! ## §3. The chain of a run. -/

/-- **Somebody known has voted**: no quorum comes together without a peer. -/
theorem exists_peer_of_quorumVotes {crypto : Crypto} {l : Ledger} (hl : Accounted l)
    {b : BlockStruct} (h : QuorumVotes crypto l b) : ∃ v ∈ b.votes, l.hasPeer v.origin = true := by
  obtain ⟨v, hv, -, -, -, hpos⟩ := hl.votes_meet h h
  obtain ⟨peer, hpeer, -⟩ := exists_peer_of_getStake_pos hpos
  refine ⟨v, hv, ?_⟩
  rw [Ledger.hasPeer, OrdMap.has, hpeer]
  rfl

/-- The genesis block comes to a ledger without peers: its votes do not count. -/
theorem updateCacheAt_genesis {c : Blockchain} (hpeers : c.mapPeer = .empty)
    (hvotes : c.mapVoteStake = .empty) (b : BlockStruct) :
    c.updateCacheAt .new b = some (c.cacheBlock b) := by
  -- Before the first block no origin is a peer, so no vote is counted.
  have hcount : ∀ votes : List VoteStruct,
      votes.foldl (countVote c.toLedger) OrdMap.empty = OrdMap.empty := by
    intro votes
    induction votes with
    | nil => rfl
    | cons v votes ih =>
        have hstranger : c.toLedger.hasPeer v.origin = false := by
          rw [Ledger.hasPeer, hpeers]
          rfl
        rw [List.foldl_cons, countVote, hstranger]
        exact ih
  have hsame : (c.cacheBlock b).countVotes b = c.cacheBlock b := by
    unfold countVotes
    show { c.cacheBlock b with mapVoteStake := b.votes.foldl (countVote c.toLedger) c.mapVoteStake }
      = c.cacheBlock b
    rw [hvotes, hcount, ← hvotes]
    rfl
  unfold updateCacheAt
  dsimp only
  rw [hsame]
  -- With an empty table `stakeVote` returns before it divides by its size.
  have hskip : (c.cacheBlock b).stakeVote b = .skip := by
    unfold stakeVote
    rw [if_pos]
    show c.mapVoteStake.size = 0
    rw [hvotes]
    rfl
  rw [hskip]

/-- **The replay of a validated chain** runs to its end exactly if no hash after
the genesis block starts a stake vote. -/
theorem replayAt_validated_iff {crypto : Crypto} {genesis : BlockStruct} {bs : List BlockStruct}
    (h : Validated crypto genesis bs) {c : Blockchain} (hledger : c.toLedger = Ledger.fresh)
    (hvotes : c.mapVoteStake = .empty) :
    (c.replayAt .new bs).isSome = true ↔ ∀ b ∈ bs.tail, FewSameChars b := by
  obtain ⟨rest, rfl⟩ : ∃ rest, bs = genesis :: rest := by
    have hhead := h.head
    cases bs with
    | nil => exact nomatch hhead
    | cons b rest =>
        obtain rfl := Option.some.inj hhead
        exact ⟨rest, rfl⟩
  rw [List.tail_cons]
  unfold replayAt
  dsimp only
  have hpeers : c.mapPeer = .empty := congrArg Ledger.mapPeer hledger
  rw [updateCacheAt_genesis hpeers hvotes]
  refine replayAt_isSome_iff ?_
  intro b hb
  -- the second block has been validated against the ledger of the genesis block
  have htwo : Validated crypto genesis ([genesis] ++ [b]) := by
    have htake := h.take (k := 2) (by omega)
    cases rest with
    | nil => exact nomatch hb
    | cons b' rest =>
        obtain rfl := Option.some.inj hb
        exact htake
  obtain ⟨-, -, -, -, hvalid⟩ := htwo.of_concat (List.cons_ne_nil _ _)
  have hledger' : Ledger.fresh.applyBlocks [genesis]
      = (c.toLedger.processState genesis.tx).1 := by
    rw [Ledger.processState_fst, hledger]
    rfl
  rw [hledger'] at hvalid
  have haccounted : Accounted (c.toLedger.processState genesis.tx).1 := by
    rw [← hledger']
    exact Accounted.fresh.applyBlocks _
  exact size_countVotes_ne_zero
    (Or.inr (exists_peer_of_quorumVotes haccounted (validateBlock_true_iff.mp hvalid).2))

/-- **Restart succeeds** on the store of a run exactly if no block after the
genesis block has a hash that starts a stake vote, whatever the own key is. -/
theorem restart_completes_iff {crypto : Crypto} {publicKey : Text} {genesis : BlockStruct}
    {c : Blockchain} (hg : 1 ≤ genesis.height) (h : Runs crypto publicKey genesis c)
    (ownKey : Text) (maxBlocks : Nat) (file : BlockStruct) :
    (Server.new.start crypto file (withStore ownKey maxBlocks c.dbBlockchain)).isSome = true
      ↔ ∀ b ∈ c.chain.tail, FewSameChars b := by
  have hvalidated := (h.holds hg).1
  have hstored := h.stored hg
  have hinit : (withStore ownKey maxBlocks c.dbBlockchain).initAt .new
      = (withStore ownKey maxBlocks c.dbBlockchain).rewind.replayAt .new c.chain := rfl
  have hreplay := replayAt_validated_iff hvalidated
    (c := (withStore ownKey maxBlocks c.dbBlockchain).rewind) rfl rfl
  rw [← hreplay]
  unfold Server.start
  rw [hinit]
  cases hd : (withStore ownKey maxBlocks c.dbBlockchain).rewind.replayAt .new c.chain with
  | none => rfl
  | some d =>
      -- the store is not empty, so there is nothing to reset
      have hspec := replay_spec (replay_of_replayAt (fun _ => true) hd)
      have hheight : d.height = c.height := by
        rw [hspec.height, hstored.last]
        rfl
      have hpos := hstored.pos
      dsimp only
      rw [if_neg (by omega)]

/-- A chain of two blocks, on the store of which another key starts. -/
theorem restart_completes_of_sample :
    (Server.new.start sampleCrypto (genesisFile 3)
      (withStore (keyOf 1) 100 (sampleLive 0 [0, 1]).dbBlockchain)).isSome = true := by
  have hadd : (sampleStart 0).add sampleCrypto (sampleBlock [0, 1]) true
      = .added (sampleLive 0 [0, 1]) := by decide +kernel
  exact (restart_completes_iff (by decide) ((Runs.start start_sampleStart).add hadd) _ _ _).mpr
    (by decide +kernel)

/-- A block with a hash of one character only. -/
def repeatedBlock : BlockStruct := { sampleBlock [0, 1] with hash := zeros 43 }

def repeatedTable : Crypto :=
  tableCrypto [genesisText 3]
    [(keyOf 0, signedText 2 sampleTx.commands), (keyOf 0, zeros 43), (keyOf 1, zeros 43)]

def repeatedCrypto : Crypto :=
  { repeatedTable with
    hash := fun d =>
      if d = hashText BLOCK_VERSION (label 43 0) repeatedBlock.tx 2 then zeros 43
      else repeatedTable.hash d }

def repeatedChain : Blockchain :=
  match (sampleStart 0).add repeatedCrypto repeatedBlock true with
  | .added c => c
  | _ => fresh [] 0

/-- **A stake vote in the replay**: the block has been added live, and the next
start throws. -/
theorem restart_throws :
    ¬ ∀ c, Runs repeatedCrypto (keyOf 0) sampleGenesis c →
      (Server.new.start repeatedCrypto (genesisFile 3) (withStore (keyOf 0) 100 c.dbBlockchain)).isSome
        = true := by
  intro hclaim
  have hadd : (sampleStart 0).add repeatedCrypto repeatedBlock true = .added repeatedChain := by
    decide +kernel
  have hsome := hclaim _ ((Runs.start start_sampleStart).add hadd)
  exact absurd hsome (by decide +kernel)

end Blockchain

end Divachain
