/-
  Divachain.Chain.Blockchain — the chain of one node.

  `Blockchain` is the ledger plus the block store, the block cache and the
  votes counted for the stake vote.  `add` applies a block live (state, then
  cache); `init` replays the stored blocks (cache, then state).  Both end
  where the stake vote has nobody to propose: the code reads `vs[0][0]` of an
  empty list there and throws.

  `updateCache` may ask the server for a stake proposal; what the server
  answers is the parameter `answer`.
-/
import Divachain.Net.Validation
import Mathlib.Data.List.Sort

namespace Divachain

open DataKit

def STAKE_VOTE_MATCH_THRESHOLD : Nat := 3

structure Blockchain extends Ledger where
  publicKey : Text
  /-- `config.blockchain_max_blocks_in_memory`. -/
  maxBlocks : Nat
  dbBlockchain : Store Nat BlockStruct
  height : Nat
  mapBlocks : OrdMap Nat BlockStruct
  /-- `none` is the empty object of a chain without a block. -/
  latestBlock : Option BlockStruct
  mapVoteStake : OrdMap Text Nat
  deriving DecidableEq

namespace Blockchain

variable (crypto : Crypto)

/-- A new instance over an empty store. -/
def fresh (publicKey : Text) (maxBlocks : Nat) : Blockchain :=
  { Ledger.fresh with
    publicKey := publicKey
    maxBlocks := maxBlocks
    dbBlockchain := .empty
    height := 0
    mapBlocks := .empty
    latestBlock := none
    mapVoteStake := .empty }

/-- The genesis block in a file carries no hash of its own: `genesis` fills it in. -/
def genesis (b : BlockStruct) : BlockStruct :=
  { b with hash := crypto.hash (hashText b.version b.previousHash b.tx b.height) }

/-! ## §1. `updateCache`. -/

/-- The cached height, latest block and blocks.  Before the cache is full the
evicted key would be negative, and there is no such block. -/
def cacheBlock (c : Blockchain) (b : BlockStruct) : Blockchain :=
  let mapBlocks := c.mapBlocks.set b.height b
  { c with
    height := b.height
    latestBlock := some b
    mapBlocks :=
      if c.maxBlocks < mapBlocks.size ∧ c.maxBlocks ≤ b.height then
        mapBlocks.delete (b.height - c.maxBlocks)
      else mapBlocks }

/-- One more vote for a known origin. -/
def countVote (l : Ledger) (mapVoteStake : OrdMap Text Nat) (v : VoteStruct) : OrdMap Text Nat :=
  if l.hasPeer v.origin then
    mapVoteStake.set v.origin ((mapVoteStake.get? v.origin).getD 0 + 1)
  else mapVoteStake

def countVotes (c : Blockchain) (b : BlockStruct) : Blockchain :=
  { c with mapVoteStake := b.votes.foldl (countVote c.toLedger) c.mapVoteStake }

/-- How often the character at `height % length` stands in the hash. -/
def sameChars (hash : Text) (height : Nat) : Nat :=
  match hash[height % hash.length]? with
  | some ch => hash.count ch
  | none => 0

/-- The order of `vs.sort`: most votes first, among equals the larger key first. -/
def voteBefore (a b : Text × Nat) : Prop := b.2 < a.2 ∨ (a.2 = b.2 ∧ b.1 ≤ a.1)

instance : DecidableRel voteBefore := fun a b =>
  inferInstanceAs (Decidable (b.2 < a.2 ∨ (a.2 = b.2 ∧ b.1 ≤ a.1)))

/-- What the stake vote comes to. -/
inductive StakeVote where
  | skip
  | throws
  | propose (publicKey : Text)
  deriving DecidableEq, Repr

def stakeVote (c : Blockchain) (b : BlockStruct) : StakeVote :=
  if c.mapVoteStake.size = 0 then .skip
  else if sameChars b.hash b.height < STAKE_VOTE_MATCH_THRESHOLD then .skip
  else
    let vs := (c.mapVoteStake.entries.filter fun a => decide (a.1 ≠ c.publicKey)).insertionSort
      voteBefore
    match vs with
    -- the first entry of an empty list is read
    | [] => .throws
    | a :: _ => .propose a.1

def dropVote (c : Blockchain) (publicKey : Text) : Blockchain :=
  { c with mapVoteStake := c.mapVoteStake.delete publicKey }

/-- What the stake vote leaves; `none` where the code throws. -/
def settle (answer : Bool) (c : Blockchain) : StakeVote → Option Blockchain
  | .skip => some c
  | .throws => none
  | .propose publicKey => some (if answer then c.dropVote publicKey else c)

def updateCache (answer : Bool) (c : Blockchain) (b : BlockStruct) : Option Blockchain :=
  let c := (c.cacheBlock b).countVotes b
  c.settle answer (c.stakeVote b)

/-! ## §2. `add`. -/

/-- The guard of `add`. -/
def accepts (c : Blockchain) (b : BlockStruct) : Bool :=
  decide (c.height + 1 = b.height)
    && decide (c.latestBlock.map BlockStruct.hash = some b.previousHash)
    && validateBlock crypto c.toLedger b true

def putBlock (c : Blockchain) (key : Nat) (b : BlockStruct) : Blockchain :=
  { c with dbBlockchain := c.dbBlockchain.put key b }

def setLedger (c : Blockchain) (l : Ledger) : Blockchain := { c with toLedger := l }

/-- What a call of `add` comes to. -/
inductive AddResult where
  | rejected
  | throws
  | added (c : Blockchain)
  deriving DecidableEq

/-- One call of `add` that nothing interrupts: the block is a value, since nobody else
writes to it, and the answer of the server to a stake proposal is free.  The cached
block is the object `processState` has written to; the stored text is older.  A call
with its awaits, and with the server and the network, is `Node.resumeAdd`. -/
def add (c : Blockchain) (b : BlockStruct) (answer : Bool) : AddResult :=
  if c.accepts crypto b then
    -- The ledger is up to date when the votes are counted.
    let r := c.toLedger.processState b.tx
    match ((c.putBlock b.height b).setLedger r.1).updateCache answer { b with tx := r.2 } with
    | some c' => .added c'
    | none => .throws
  else .rejected

/-! ## §3. `init`, `clear`, `reset`. -/

/-- The loop of `init`.  `updateCache` reads the ledger before the block is
applied; the block it caches is then written to by `processState`.  `answers`
gives the server's answer for each height. -/
def replay (answers : Nat → Bool) : Blockchain → List BlockStruct → Option Blockchain
  | c, [] => some c
  | c, b :: bs =>
      let r := c.toLedger.processState b.tx
      match c.updateCache (answers b.height) { b with tx := r.2 } with
      | some c' => replay answers (c'.setLedger r.1) bs
      | none => none

/-- What `init` resets before its loop. -/
def rewind (c : Blockchain) : Blockchain :=
  { c with height := 0, mapBlocks := .empty, latestBlock := none, dbState := .empty }

def init (answers : Nat → Bool) (c : Blockchain) : Option Blockchain :=
  replay answers c.rewind c.dbBlockchain.values

/-- `clear` forgets the peers, but neither the two address maps, nor the
running total, nor the two tallies. -/
def clear (c : Blockchain) : Blockchain :=
  { c with
    dbBlockchain := .empty
    dbState := .empty
    height := 0
    mapBlocks := .empty
    latestBlock := none
    mapPeer := .empty }

def reset (answers : Nat → Bool) (c : Blockchain) (genesis : BlockStruct) : Option Blockchain :=
  (c.clear.putBlock 1 genesis).init answers

/-- A new process over the store the last one left. -/
def restart (answers : Nat → Bool) (maxBlocks : Nat) (c : Blockchain) : Option Blockchain :=
  ({ fresh c.publicKey maxBlocks with dbBlockchain := c.dbBlockchain } : Blockchain).init answers

/-! ## §4. What each part leaves alone. -/

@[simp] theorem toLedger_cacheBlock (c : Blockchain) (b : BlockStruct) :
    (c.cacheBlock b).toLedger = c.toLedger := rfl

@[simp] theorem toLedger_countVotes (c : Blockchain) (b : BlockStruct) :
    (c.countVotes b).toLedger = c.toLedger := rfl

@[simp] theorem toLedger_setLedger (c : Blockchain) (l : Ledger) :
    (c.setLedger l).toLedger = l := rfl

/-- The fields `updateCache` writes to, apart from the counted votes. -/
structure CachedBy (b : BlockStruct) (c c' : Blockchain) : Prop where
  ledger : c'.toLedger = c.toLedger
  publicKey : c'.publicKey = c.publicKey
  maxBlocks : c'.maxBlocks = c.maxBlocks
  dbBlockchain : c'.dbBlockchain = c.dbBlockchain
  height : c'.height = b.height
  latestBlock : c'.latestBlock = some b
  mapBlocks : c'.mapBlocks = (c.cacheBlock b).mapBlocks

/-- **`updateCache` leaves the ledger and the store alone.** -/
theorem updateCache_spec {answer : Bool} {c c' : Blockchain} {b : BlockStruct}
    (h : c.updateCache answer b = some c') : CachedBy b c c' := by
  unfold updateCache settle at h
  dsimp only at h
  split at h
  · obtain rfl := Option.some.inj h
    exact ⟨rfl, rfl, rfl, rfl, rfl, rfl, rfl⟩
  · exact nomatch h
  · obtain rfl := Option.some.inj h
    cases answer <;> exact ⟨rfl, rfl, rfl, rfl, rfl, rfl, rfl⟩

/-- A hash without repetitions starts no stake vote. -/
theorem updateCache_of_few {answer : Bool} {c : Blockchain} {b : BlockStruct}
    (h : sameChars b.hash b.height < STAKE_VOTE_MATCH_THRESHOLD) :
    c.updateCache answer b = some ((c.cacheBlock b).countVotes b) := by
  have hskip : ((c.cacheBlock b).countVotes b).stakeVote b = .skip := by
    unfold stakeVote
    by_cases hsize : ((c.cacheBlock b).countVotes b).mapVoteStake.size = 0
    · rw [if_pos hsize]
    · rw [if_neg hsize, if_pos h]
  unfold updateCache
  dsimp only
  rw [hskip]
  rfl

/-- What a call of `add` that returns true has checked and done. -/
structure AddedBy (crypto : Crypto) (b : BlockStruct) (c c' : Blockchain) : Prop where
  accepts : c.accepts crypto b = true
  ledger : c'.toLedger = c.toLedger.applyTx b.tx
  publicKey : c'.publicKey = c.publicKey
  maxBlocks : c'.maxBlocks = c.maxBlocks
  dbBlockchain : c'.dbBlockchain = c.dbBlockchain.put b.height b
  height : c'.height = b.height
  latestBlock : c'.latestBlock = some { b with tx := (c.toLedger.processState b.tx).2 }

theorem add_spec {answer : Bool} {c c' : Blockchain} {b : BlockStruct}
    (h : c.add crypto b answer = .added c') : AddedBy crypto b c c' := by
  unfold add at h
  split at h
  next haccepts =>
    dsimp only at h
    split at h
    next c'' hcache =>
      obtain rfl : c'' = c' := AddResult.added.inj h
      have hspec := updateCache_spec hcache
      refine ⟨haccepts, ?_, hspec.publicKey, hspec.maxBlocks, hspec.dbBlockchain, hspec.height,
        hspec.latestBlock⟩
      rw [hspec.ledger, toLedger_setLedger, Ledger.processState_fst]
    next => exact nomatch h
  next => exact nomatch h

/-- A block that passes the guard and starts no stake vote is added. -/
theorem add_of_few {answer : Bool} {c : Blockchain} {b : BlockStruct}
    (haccepts : c.accepts crypto b = true)
    (h : sameChars b.hash b.height < STAKE_VOTE_MATCH_THRESHOLD) :
    ∃ c', c.add crypto b answer = .added c' := by
  unfold Blockchain.add
  rw [if_pos haccepts]
  dsimp only
  rw [updateCache_of_few (b := { b with tx := (c.toLedger.processState b.tx).2 }) h]
  exact ⟨_, rfl⟩

/-- What the guard of `add` has checked. -/
theorem accepts_iff {c : Blockchain} {b : BlockStruct} :
    c.accepts crypto b = true ↔
      c.height + 1 = b.height ∧ c.latestBlock.map BlockStruct.hash = some b.previousHash
        ∧ WellFormedBlock crypto c.toLedger b ∧ QuorumVotes crypto c.toLedger b := by
  simp only [accepts, Bool.and_eq_true, decide_eq_true_eq, validateBlock_true_iff, and_assoc]

end Blockchain

/-- Apply the blocks of a chain. -/
def Ledger.applyBlocks (l : Ledger) (bs : List BlockStruct) : Ledger :=
  bs.foldl (fun l b => l.applyTx b.tx) l

theorem Ledger.applyBlocks_append (l : Ledger) (bs cs : List BlockStruct) :
    l.applyBlocks (bs ++ cs) = (l.applyBlocks bs).applyBlocks cs := List.foldl_append

namespace Blockchain

/-- What a replay leaves, where it runs to its end. -/
structure ReplayedBy (bs : List BlockStruct) (c c' : Blockchain) : Prop where
  ledger : c'.toLedger = c.toLedger.applyBlocks bs
  publicKey : c'.publicKey = c.publicKey
  maxBlocks : c'.maxBlocks = c.maxBlocks
  dbBlockchain : c'.dbBlockchain = c.dbBlockchain
  height : c'.height = (bs.getLast?.map BlockStruct.height).getD c.height
  latest : ∀ b, bs.getLast? = some b → c'.latestBlock.map BlockStruct.hash = some b.hash
  top : ∀ b, bs.getLast? = some b → c'.latestBlock.map BlockStruct.height = some b.height

/-- **Replaying the blocks applies each once, in order.** -/
theorem replay_spec {answers : Nat → Bool} :
    ∀ {c c' : Blockchain} {bs : List BlockStruct},
      c.replay answers bs = some c' → ReplayedBy bs c c'
  | c, c', [], h => by
      obtain rfl := Option.some.inj h
      exact ⟨rfl, rfl, rfl, rfl, rfl, fun _ h => (nomatch h), fun _ h => (nomatch h)⟩
  | c, c', b :: bs, h => by
      unfold replay at h
      dsimp only at h
      split at h
      next d hcache =>
        have hcached := updateCache_spec hcache
        have hrest := replay_spec h
        refine ⟨?_, hrest.publicKey.trans hcached.publicKey,
          hrest.maxBlocks.trans hcached.maxBlocks,
          hrest.dbBlockchain.trans hcached.dbBlockchain, ?_, ?_, ?_⟩
        · rw [hrest.ledger, toLedger_setLedger, Ledger.processState_fst]
          rfl
        -- The height after the replay is that of the last block, or of `d` if `b` is the last.
        · rw [hrest.height]
          show (bs.getLast?.map BlockStruct.height).getD d.height = _
          rw [hcached.height, List.getLast?_cons]
          cases bs.getLast? <;> rfl
        -- The latest block is set by the last step alone: cases on whether a block follows.
        · intro last hlast
          cases bs with
          | nil =>
              obtain rfl := Option.some.inj hlast
              obtain rfl := Option.some.inj h
              show d.latestBlock.map BlockStruct.hash = _
              rw [hcached.latestBlock]
              rfl
          | cons b' bs => exact hrest.latest last (List.getLast?_cons_cons ▸ hlast)
        · intro last hlast
          cases bs with
          | nil =>
              obtain rfl := Option.some.inj hlast
              obtain rfl := Option.some.inj h
              show d.latestBlock.map BlockStruct.height = _
              rw [hcached.latestBlock]
              rfl
          | cons b' bs => exact hrest.top last (List.getLast?_cons_cons ▸ hlast)
      next => exact nomatch h

end Blockchain

end Divachain
