/-
  Divachain.Chain.Run — runs of one chain: start, blocks, new processes.

  A run starts a new instance from a genesis block, adds blocks one after the
  other and may end the process and start over from the stored blocks.  The
  invariant `Stored` says that the ledger is at every moment the fold of the
  stored blocks: live application and replay meet in it.
-/
import Divachain.Chain.Blockchain
import Divachain.Chain.TableCrypto

namespace Divachain

open DataKit

namespace Blockchain

variable (crypto : Crypto)

/-- The states of a node that starts with `genesis`.  Whatever its key, its
cache size and the answers of its server are. -/
inductive Runs (publicKey : Text) (genesis : BlockStruct) : Blockchain → Prop where
  | start {maxBlocks : Nat} {answers : Nat → Bool} {c : Blockchain}
      (h : (fresh publicKey maxBlocks).reset answers genesis = some c) : Runs publicKey genesis c
  | add {c c' : Blockchain} {b : BlockStruct} {answer : Bool} (hc : Runs publicKey genesis c)
      (h : c.add crypto b answer = .added c') : Runs publicKey genesis c'
  | restart {c c' : Blockchain} {maxBlocks : Nat} {answers : Nat → Bool}
      (hc : Runs publicKey genesis c) (h : c.restart answers maxBlocks = some c') :
      Runs publicKey genesis c'

/-- The blocks of the chain, in store order. -/
def chain (c : Blockchain) : List BlockStruct := c.dbBlockchain.values

/-- **The ledger is the fold of the stored blocks**, and the last of them is
the block at the current height. -/
structure Stored (genesis : BlockStruct) (c : Blockchain) : Prop where
  ledger : c.toLedger = Ledger.fresh.applyBlocks c.chain
  genesis_first : c.chain.head? = some genesis
  keys_le : ∀ e ∈ c.dbBlockchain.entries, e.1 ≤ c.height
  last : c.chain.getLast?.map BlockStruct.height = some c.height
  pos : 1 ≤ c.height

theorem stored_start {publicKey : Text} {maxBlocks : Nat} {answers : Nat → Bool}
    {genesis : BlockStruct} {c : Blockchain} (hg : 1 ≤ genesis.height)
    (h : (fresh publicKey maxBlocks).reset answers genesis = some c) : Stored genesis c := by
  have hspec := replay_spec h
  have hchain : c.dbBlockchain = Store.empty.put 1 genesis := hspec.dbBlockchain
  have hheight : c.height = genesis.height := hspec.height
  refine ⟨?_, ?_, ?_, ?_, ?_⟩
  · rw [chain, hchain]
    exact hspec.ledger
  · rw [chain, hchain]
    rfl
  · intro e he
    rw [hchain] at he
    obtain rfl : e = (1, genesis) := List.mem_singleton.mp he
    rw [hheight]
    exact hg
  · rw [chain, hchain, hheight]
    rfl
  · rw [hheight]
    exact hg

/-- The store after a block has been put above all others. -/
theorem values_put_above {s : Store Nat BlockStruct} {b : BlockStruct} {n : Nat}
    (hkeys : ∀ e ∈ s.entries, e.1 ≤ n) (hb : n + 1 = b.height) :
    (s.put b.height b).values = s.values ++ [b] := by
  have habove : ∀ e ∈ s.entries, e.1 < b.height := fun e he => by
    have := hkeys e he
    omega
  rw [Store.values, Store.entries_put_above s b.height b habove, List.map_append]
  rfl

theorem stored_add {genesis b : BlockStruct} {answer : Bool} {c c' : Blockchain}
    (hc : Stored genesis c) (h : c.add crypto b answer = .added c') : Stored genesis c' := by
  have hspec := add_spec crypto h
  obtain ⟨hheight, -, -, -⟩ := (accepts_iff crypto).mp hspec.accepts
  have hchain : c'.chain = c.chain ++ [b] := by
    rw [chain, hspec.dbBlockchain]
    exact values_put_above hc.keys_le hheight
  refine ⟨?_, ?_, ?_, ?_, ?_⟩
  · rw [hspec.ledger, hchain, Ledger.applyBlocks_append, ← hc.ledger]
    rfl
  · rw [hchain, List.head?_append, hc.genesis_first]
    rfl
  · intro e he
    rw [hspec.dbBlockchain] at he
    rw [hspec.height]
    rcases Store.mem_entries_put he with rfl | he
    · exact le_refl _
    -- The new key is one above all others, so it ends up last.
    · have := hc.keys_le e he
      omega
  · rw [hchain, List.getLast?_concat, hspec.height]
    rfl
  · rw [hspec.height]
    omega

theorem stored_restart {genesis : BlockStruct} {maxBlocks : Nat} {answers : Nat → Bool}
    {c c' : Blockchain} (hc : Stored genesis c) (h : c.restart answers maxBlocks = some c') :
    Stored genesis c' := by
  have hspec := replay_spec h
  have hdb : c'.dbBlockchain = c.dbBlockchain := hspec.dbBlockchain
  have hchain : c'.chain = c.chain := congrArg Store.values hdb
  -- The replay ends at the last stored block, which the invariant puts at `c.height`.
  have hheight : c'.height = c.height := by
    rw [hspec.height]
    show (c.chain.getLast?.map BlockStruct.height).getD 0 = _
    rw [hc.last]
    rfl
  refine ⟨?_, ?_, ?_, ?_, ?_⟩
  · rw [hchain]
    exact hspec.ledger
  · rw [hchain]
    exact hc.genesis_first
  · rw [hdb, hheight]
    exact hc.keys_le
  · rw [hchain, hheight]
    exact hc.last
  · rw [hheight]
    exact hc.pos

/-- **The ledger of a run is the fold of the stored blocks.** -/
theorem Runs.stored {crypto : Crypto} {publicKey : Text} {genesis : BlockStruct} {c : Blockchain}
    (hg : 1 ≤ genesis.height) (h : Runs crypto publicKey genesis c) : Stored genesis c := by
  induction h with
  | start h => exact stored_start hg h
  | add _ h ih => exact stored_add crypto ih h
  | restart _ h ih => exact stored_restart ih h

/-! ## The blocks of a run are validated one by one. -/

/-- **A hash-linked sequence of blocks**, each validated against the ledger its
predecessors produce. -/
inductive Validated (genesis : BlockStruct) : List BlockStruct → Prop where
  | genesis : Validated genesis [genesis]
  | snoc {bs : List BlockStruct} {last b : BlockStruct} (hbs : Validated genesis bs)
      (hlast : bs.getLast? = some last) (hheight : b.height = last.height + 1)
      (hprev : b.previousHash = last.hash)
      (hvalid : validateBlock crypto (Ledger.fresh.applyBlocks bs) b true = true) :
      Validated genesis (bs ++ [b])

/-- The chain holds exactly the blocks `bs`: its ledger, store, height and
latest hash are what applying them once each, in order, gives. -/
structure Holds (bs : List BlockStruct) (c : Blockchain) : Prop where
  ledger : c.toLedger = Ledger.fresh.applyBlocks bs
  stored : c.dbBlockchain.values = bs
  keys_le : ∀ e ∈ c.dbBlockchain.entries, e.1 ≤ c.height
  height : bs.getLast?.map BlockStruct.height = some c.height
  latest : c.latestBlock.map BlockStruct.hash = bs.getLast?.map BlockStruct.hash

/-- A block that `add` takes continues the sequence. -/
theorem Validated.accepted {crypto : Crypto} {genesis b : BlockStruct} {bs : List BlockStruct}
    {c : Blockchain} (hbs : Validated crypto genesis bs)
    (hledger : c.toLedger = Ledger.fresh.applyBlocks bs)
    (hheight : bs.getLast?.map BlockStruct.height = some c.height)
    (hlatest : c.latestBlock.map BlockStruct.hash = bs.getLast?.map BlockStruct.hash)
    (hb : c.accepts crypto b = true) : Validated crypto genesis (bs ++ [b]) := by
  obtain ⟨hnext, hprev, hwf, hvotes⟩ := (accepts_iff crypto).mp hb
  cases hlast : bs.getLast? with
  | none =>
      rw [hlast] at hheight
      exact nomatch hheight
  | some last =>
      rw [hlast, Option.map_some, Option.some.injEq] at hheight
      rw [hlast, hprev, Option.map_some, Option.some.injEq] at hlatest
      refine .snoc hbs hlast (by omega) hlatest ?_
      rw [← hledger]
      exact validateBlock_true_iff.mpr ⟨hwf, hvotes⟩

theorem holds_start {publicKey : Text} {maxBlocks : Nat} {answers : Nat → Bool}
    {genesis : BlockStruct} {c : Blockchain} (hg : 1 ≤ genesis.height)
    (h : (fresh publicKey maxBlocks).reset answers genesis = some c) : Holds [genesis] c := by
  have hspec := replay_spec h
  have hstored := stored_start hg h
  have hchain : c.chain = [genesis] := by
    rw [chain, hspec.dbBlockchain]
    rfl
  refine ⟨hchain ▸ hstored.ledger, hchain, hstored.keys_le, hchain ▸ hstored.last, ?_⟩
  exact hspec.latest genesis rfl

/-- What a new instance has cached: the genesis block, as its commands left it. -/
theorem cached_start {publicKey : Text} {maxBlocks : Nat} {answers : Nat → Bool}
    {genesis : BlockStruct} {c : Blockchain}
    (h : (fresh publicKey maxBlocks).reset answers genesis = some c) :
    c.latestBlock.map BlockStruct.height = some c.height
      ∧ ∀ b ∈ c.mapBlocks.values, b.height = genesis.height := by
  have hreplay : ((fresh publicKey maxBlocks).clear.putBlock 1 genesis).rewind.replay answers
      [genesis] = some c := h
  unfold replay at hreplay
  dsimp only at hreplay
  split at hreplay
  next d hcache =>
    obtain rfl := Option.some.inj hreplay
    have hcached := updateCache_spec hcache
    refine ⟨?_, ?_⟩
    · show d.latestBlock.map BlockStruct.height = some d.height
      rw [hcached.latestBlock, hcached.height]
      rfl
    -- The cache held nothing before, so whatever is left in it is the genesis block.
    · intro b hb
      change b ∈ d.mapBlocks.values at hb
      rw [hcached.mapBlocks] at hb
      unfold cacheBlock at hb
      dsimp only at hb
      split at hb
      · rcases OrdMap.mem_values_set (OrdMap.mem_values_delete hb) with rfl | hb
        · rfl
        · exact nomatch hb
      · rcases OrdMap.mem_values_set hb with rfl | hb
        · rfl
        · exact nomatch hb
  next => exact nomatch hreplay

/-- **Every run holds a validated sequence of blocks.** -/
theorem Runs.holds {crypto : Crypto} {publicKey : Text} {genesis : BlockStruct} {c : Blockchain}
    (hg : 1 ≤ genesis.height) (h : Runs crypto publicKey genesis c) :
    Validated crypto genesis c.chain ∧ Holds c.chain c := by
  induction h with
  | start h =>
      have hholds := holds_start hg h
      have hchain := hholds.stored
      change _ = [genesis] at hchain
      rw [chain, hchain]
      exact ⟨.genesis, hholds⟩
  -- A block is accepted against the state that the chain so far has built.
  | @add c c' b answer hc h ih =>
      have hstored := (Runs.add hc h).stored hg
      have hspec := add_spec crypto h
      obtain ⟨hheight, -, -, -⟩ := (accepts_iff crypto).mp hspec.accepts
      have hchain : c'.chain = c.chain ++ [b] := by
        rw [chain, hspec.dbBlockchain]
        exact values_put_above ih.2.keys_le hheight
      refine ⟨?_, hstored.ledger, rfl, hstored.keys_le, hstored.last, ?_⟩
      · rw [hchain]
        exact ih.1.accepted ih.2.ledger ih.2.height ih.2.latest hspec.accepts
      · rw [hchain, List.getLast?_concat, hspec.latestBlock]
        rfl
  -- The store is kept, so the chain is; only the latest block has to be found again.
  | @restart c c' maxBlocks answers hc h ih =>
      have hstored := (Runs.restart hc h).stored hg
      have hspec := replay_spec h
      have hchain : c'.chain = c.chain := congrArg Store.values hspec.dbBlockchain
      refine ⟨hchain ▸ ih.1, hstored.ledger, rfl, hstored.keys_le, hstored.last, ?_⟩
      rw [hchain]
      cases hlast : c.chain.getLast? with
      | none =>
          have hheight := ih.2.height
          rw [hlast] at hheight
          exact nomatch hheight
      | some last => exact hspec.latest last hlast

/-- **The latest block is the one at the height of the chain.** -/
theorem Runs.top {crypto : Crypto} {publicKey : Text} {genesis : BlockStruct} {c : Blockchain}
    (hg : 1 ≤ genesis.height) (h : Runs crypto publicKey genesis c) :
    c.latestBlock.map BlockStruct.height = some c.height := by
  induction h with
  | start h => exact (cached_start h).1
  | add hc h ih =>
      have hspec := add_spec crypto h
      rw [hspec.latestBlock, hspec.height]
      rfl
  | @restart c c' maxBlocks answers hc h ih =>
      have hspec := replay_spec h
      have hstored := (Runs.restart hc h).stored hg
      have hchain : c'.chain = c.chain := congrArg Store.values hspec.dbBlockchain
      have hlast := hstored.last
      rw [hchain] at hlast
      obtain ⟨last, hlast', hheight⟩ := Option.map_eq_some_iff.mp hlast
      rw [hspec.top last hlast', hheight]

/-! ## The ledger is a function of the transactions. -/

/-- Blocks that differ in their votes only do the same to a ledger. -/
theorem applyBlocks_congr_votes :
    ∀ {l : Ledger} {bs cs : List BlockStruct},
      bs.map BlockStruct.withoutVotes = cs.map BlockStruct.withoutVotes →
        l.applyBlocks bs = l.applyBlocks cs
  | _, [], [], _ => rfl
  | _, [], _ :: _, h => by simp at h
  | _, _ :: _, [], h => by simp at h
  | l, b :: bs, c :: cs, h => by
      rw [List.map_cons, List.map_cons, List.cons.injEq] at h
      have htx : b.withoutVotes.tx = c.withoutVotes.tx := congrArg BlockStruct.tx h.1
      change b.tx = c.tx at htx
      show (l.applyTx b.tx).applyBlocks bs = (l.applyTx c.tx).applyBlocks cs
      rw [htx]
      exact applyBlocks_congr_votes h.2

/-- **The ledger is a function of the committed transactions**: two nodes whose
chains agree up to votes have one ledger, whatever their keys, caches, stake
proposals and restarts. -/
theorem ledger_of_transactions {crypto : Crypto} {publicKey publicKey' : Text}
    {genesis : BlockStruct} {c c' : Blockchain} (hg : 1 ≤ genesis.height)
    (hc : Runs crypto publicKey genesis c) (hc' : Runs crypto publicKey' genesis c')
    (hchain : c.chain.map BlockStruct.withoutVotes = c'.chain.map BlockStruct.withoutVotes) :
    c.toLedger = c'.toLedger := by
  rw [(hc.stored hg).ledger, (hc'.stored hg).ledger]
  exact applyBlocks_congr_votes hchain

/-! ## A chain of two blocks, applied live and replayed. -/

def sampleTx : TransactionStruct :=
  { ident := ['t']
    origin := keyOf 0
    commands := [
      { seq := 1
        body := .modifyStake (keyOf 1) ['v'] 2
        keys := [.seq, .command, .publicKey, .ident, .stake] },
      { seq := 2
        body := .removePeer (keyOf 0)
        keys := [.seq, .command, .publicKey] }]
    sig := label 86 0
    keys := TransactionStruct.fields }

/-- The second block over three peers, with the votes of the given peers. -/
def sampleBlock (votes : List Nat) : BlockStruct :=
  { version := BLOCK_VERSION
    previousHash := label 43 0
    hash := label 43 1
    tx := [sampleTx]
    height := 2
    votes := votes.map fun i => { origin := keyOf i, sig := label 86 (i + 1) } }

/-- Another second block: the identifier of a transaction is not signed. -/
def sampleRival (votes : List Nat) : BlockStruct :=
  { version := BLOCK_VERSION
    previousHash := label 43 0
    hash := label 43 2
    tx := [{ sampleTx with ident := ['u'] }]
    height := 2
    votes := votes.map fun i => { origin := keyOf i, sig := label 86 (i + 4) } }

def sampleCrypto : Crypto :=
  tableCrypto
    [genesisText 3, hashText BLOCK_VERSION (label 43 0) (sampleBlock []).tx 2,
      hashText BLOCK_VERSION (label 43 0) (sampleRival []).tx 2]
    [(keyOf 0, signedText 2 sampleTx.commands), (keyOf 0, label 43 1), (keyOf 1, label 43 1),
      (keyOf 2, label 43 1), (keyOf 0, label 43 2), (keyOf 1, label 43 2), (keyOf 2, label 43 2)]

def sampleGenesis : BlockStruct := genesis sampleCrypto (genesisFile 3)

def sampleStart (i : Nat) : Blockchain :=
  ((fresh (keyOf i) 100).reset (fun _ => true) sampleGenesis).getD (fresh [] 0)

theorem start_sampleStart : (fresh (keyOf 0) 100).reset (fun _ => true) sampleGenesis
    = some (sampleStart 0) := by decide +kernel

def sampleLive (i : Nat) (votes : List Nat) : Blockchain :=
  match (sampleStart i).add sampleCrypto (sampleBlock votes) true with
  | .added c => c
  | _ => fresh [] 0

def sampleReplayed (i : Nat) (votes : List Nat) : Blockchain :=
  ((sampleLive i votes).restart (fun _ => false) 1).getD (fresh [] 0)

/-- Two nodes hold different votes, and one of them has been restarted. -/
theorem ledger_of_sample :
    (sampleLive 0 [0, 1]).toLedger = (sampleReplayed 1 [1, 2]).toLedger := by
  have hadd : (sampleStart 0).add sampleCrypto (sampleBlock [0, 1]) true
      = .added (sampleLive 0 [0, 1]) := by decide +kernel
  have hstart' : (fresh (keyOf 1) 100).reset (fun _ => true) sampleGenesis
      = some (sampleStart 1) := by decide +kernel
  have hadd' : (sampleStart 1).add sampleCrypto (sampleBlock [1, 2]) true
      = .added (sampleLive 1 [1, 2]) := by decide +kernel
  have hrestart : (sampleLive 1 [1, 2]).restart (fun _ => false) 1
      = some (sampleReplayed 1 [1, 2]) := by decide +kernel
  exact ledger_of_transactions (by decide) ((Runs.start start_sampleStart).add hadd)
    (((Runs.start hstart').add hadd').restart hrestart) (by decide +kernel)

end Blockchain

end Divachain
