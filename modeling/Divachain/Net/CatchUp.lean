/-
  Divachain.Net.CatchUp — a node that is behind fetches what it has missed.

  A status with a larger height makes a node ask some peer for `sync/(h + 1)` and
  hand the answer to `addBlock`, block by block.  `syncWithNetwork` does the same
  when a node starts, but after a reset that spoils it; here the node goes on from
  the blocks it has.  The peer answers with one page of its chain, so it takes a
  status for each page.

  Main results:
    * `Behind.accepts` — the next block of a chain is accepted by whoever has the
      ones before it, votes apart;
    * `behind_of_hash` — whoever has the latest block of a node has its chain;
    * `sync_serves` — what a peer answers;
    * `Follows.finishes` — when the call of `add` for the next block comes to its end;
    * `syncRounds_spec` — what some rounds bring;
    * `catches_up` — as many rounds as there are pages come to their end and leave the
      node with the chain and the ledger of its peer.
-/
import Divachain.Net.SyncAnswer
import Divachain.Net.Api
import Divachain.Chain.Lineage

namespace Divachain

open DataKit

namespace Blockchain

variable {crypto : Crypto} {publicKey publicKey' : Text} {genesis : BlockStruct}
  {c c' r : Blockchain}

/-! ## §1. The next block of another chain. -/

/-- The chain has the first blocks of the other one, votes apart. -/
def Behind (c r : Blockchain) : Prop :=
  c.chain.map BlockStruct.withoutVotes <+: r.chain.map BlockStruct.withoutVotes

instance (c r : Blockchain) : Decidable (Behind c r) :=
  inferInstanceAs (Decidable (_ <+: _))

theorem Behind.take (h : Behind c r) :
    c.chain.map BlockStruct.withoutVotes
      = (r.chain.take c.chain.length).map BlockStruct.withoutVotes := by
  have htake := List.prefix_iff_eq_take.mp h
  rw [List.length_map] at htake
  rw [List.map_take]
  exact htake

/-- Whoever knows the latest hash of a node has the node's chain. -/
theorem behind_of_hash (hinj : crypto.HashInjective) (hg : Founding crypto genesis)
    (hc : Runs crypto publicKey genesis c) (hr : Runs crypto publicKey' genesis r) {b : BlockStruct}
    (hb : b ∈ r.chain) (hhash : c.latestBlock.map BlockStruct.hash = some b.hash) :
    Behind c r := by
  obtain ⟨d, hd, hlatest, htake⟩ := hc.last hg
  rw [hlatest, Option.some.injEq] at hhash
  obtain ⟨-, hhistory⟩ := (hc.lineage hg).commits hinj (hr.lineage hg) hd hb hhash
  rw [htake] at hhistory
  unfold Behind
  rw [hhistory, List.map_take]
  exact List.take_prefix _ _

/-- An accepted block goes to the end of the chain. -/
theorem Runs.chain_add (hg : 1 ≤ genesis.height) (hc : Runs crypto publicKey genesis c)
    {b : BlockStruct} {answer : Bool} (h : c.add crypto b answer = .added c') :
    c'.chain = c.chain ++ [b] := by
  have hspec := add_spec crypto h
  obtain ⟨hheight, -⟩ := (accepts_iff crypto).mp hspec.accepts
  rw [chain, hspec.dbBlockchain]
  exact values_put_above (hc.holds hg).2.keys_le hheight

/-- **Whoever has the blocks before it accepts the next one.** -/
theorem Behind.accepts (hg : 1 ≤ genesis.height) (hc : Runs crypto publicKey genesis c)
    (hr : Runs crypto publicKey' genesis r) (h : Behind c r) {b : BlockStruct}
    (hb : r.chain[c.chain.length]? = some b) : c.accepts crypto b = true := by
  obtain ⟨hvalid, hholds⟩ := hc.holds hg
  obtain ⟨hvalid', -⟩ := hr.holds hg
  have htake := h.take
  set k := c.chain.length with hk
  have hpos : 0 < k := List.length_pos_iff.mpr hvalid.ne_nil
  obtain ⟨hlt, -⟩ := List.getElem?_eq_some_iff.mp hb
  have hnext : Validated crypto genesis (r.chain.take k ++ [b]) := by
    have hsucc := hvalid'.take (k := k + 1) (Nat.succ_pos k)
    rw [List.take_add_one, hb] at hsucc
    exact hsucc
  have hne : r.chain.take k ≠ [] := by
    intro hnil
    have hlength := congrArg List.length hnil
    rw [List.length_take, List.length_nil] at hlength
    omega
  obtain ⟨last, hlast, hheight, hprevious, hblock⟩ := hnext.of_concat hne
  -- the last blocks of both are one but for the votes
  have hlasts : c.chain.getLast?.map BlockStruct.withoutVotes = some last.withoutVotes := by
    rw [← List.getLast?_map, htake, List.getLast?_map, hlast]
    rfl
  obtain ⟨own, hown, hsame⟩ := Option.map_eq_some_iff.mp hlasts
  have hledger : c.toLedger = Ledger.fresh.applyBlocks (r.chain.take k) := by
    rw [hholds.ledger]
    exact applyBlocks_congr_votes htake
  rw [accepts_iff, ← validateBlock_true_iff, hledger, hholds.latest, hown]
  refine ⟨?_, ?_, hblock⟩
  · have htop := hholds.height
    rw [hown, Option.map_some, Option.some.injEq] at htop
    have hheights := congrArg BlockStruct.height hsame
    change own.height = last.height at hheights
    omega
  · have hhashes := congrArg BlockStruct.hash hsame
    change own.hash = last.hash at hhashes
    rw [hprevious, Option.map_some, hhashes]

/-- With the next block the chain is behind by one block less. -/
theorem Behind.concat (h : Behind c r) {b : BlockStruct} (hb : r.chain[c.chain.length]? = some b)
    (hchain : c'.chain = c.chain ++ [b]) : Behind c' r := by
  unfold Behind
  rw [hchain, List.map_append, h.take, ← List.map_append]
  have hsucc : r.chain.take c.chain.length ++ [b] = r.chain.take (c.chain.length + 1) := by
    rw [List.take_add_one, hb]
    rfl
  rw [hsucc, List.map_take]
  exact List.take_prefix _ _

/-! ## §2. What a peer answers. -/

/-- **The next page**: the blocks from the height asked for, as the peer has stored
them, one more than the sync size or all there are. -/
theorem sync_serves (hg : genesis.height = 1) (hr : Runs crypto publicKey genesis r)
    (hcopy : ∀ height b, r.mapBlocks.get? height = some b → r.dbBlockchain.get? height = some b)
    {config : ApiConfig} (hsize : config.networkSyncSize < config.maxQuerySize) {h : Nat}
    (hbehind : h < r.height) :
    Api.sync config r (h + 1) = some ((r.chain.drop h).take (config.networkSyncSize + 1)) := by
  have hindexed := hr.indexed hg
  have hlength := hindexed.length_chain
  have hhi : queryHi r.height (h + 1 : Nat) (h + 1 + config.networkSyncSize : Nat)
      = ((min r.height (h + 1 + config.networkSyncSize) : Nat) : Int) := by
    unfold queryHi clampHeight
    split_ifs <;> omega
  have hlo : queryLo config.maxQuerySize r.height (h + 1 : Nat)
      (h + 1 + config.networkSyncSize : Nat) = ((h + 1 : Nat) : Int) := by
    unfold queryLo
    rw [hhi]
    unfold clampHeight
    dsimp only
    omega
  have hrange := hindexed.getRange_between hcopy config.maxQuerySize (h + 1 : Nat)
    (h + 1 + config.networkSyncSize : Nat)
  rw [hhi, hlo, hindexed.between_eq (by omega)] at hrange
  unfold Api.sync
  rw [if_pos (Nat.succ_le_of_lt hbehind), hrange, Nat.add_sub_cancel, List.take_drop,
    ← Nat.add_assoc, Nat.add_right_comm h config.networkSyncSize 1]
  rcases Nat.le_total r.height (h + 1 + config.networkSyncSize) with hall | hmore
  · rw [Nat.min_eq_left hall, ← hlength, List.take_length, List.take_of_length_le (by omega)]
  · rw [Nat.min_eq_right hmore]

end Blockchain

/-! ## §3. One answer. -/

namespace Node

open Blockchain (Runs Behind Founding sync_serves)

variable (crypto : Crypto) (verifyOther : Option Json → Option Json → Text → Bool)

/-- The JSON of an answer. -/
def pageJson (bs : List BlockStruct) : Json := .arr (bs.map BlockStruct.toJson)

/-- A status of the peer with the chain `r` comes in, the peer is asked for the
next blocks, and its answer is processed. -/
def syncRound (config : ApiConfig) (r : Blockchain) (turns : Nat → Turn) (n : Node) : Option Node :=
  if n.chain.height < r.height then
    processAnswer crypto verifyOther turns n
      ((Api.sync config r (n.chain.height + 1)).map pageJson)
  else some n

/-- Several of them; `none` if the process ends on the way. -/
def syncRounds (config : ApiConfig) (r : Blockchain) (turns : Nat → Nat → Turn) :
    Nat → Node → Option Node
  | 0, n => some n
  | k + 1, n =>
      (syncRounds config r turns k n).bind (syncRound crypto verifyOther config r (turns k))

/-- What a peer must be like to be followed: it serves the blocks that it has
stored, a query may return a whole page, and its hashes are of one size. -/
structure Serves (config : ApiConfig) (r : Blockchain) : Prop where
  copy : ∀ height b, r.mapBlocks.get? height = some b → r.dbBlockchain.get? height = some b
  room : config.networkSyncSize < config.maxQuerySize
  sized : ∀ b ∈ r.chain, b.hash.length = 43

/-- **The stake vote of a block gets through**, with this ledger behind the block: the
hash asks for none, or somebody else who is a peer has voted for the block and
everybody in the list of the network is still a peer. -/
def VoteSent (own : Text) (network : List Text) (l : Ledger) (b : BlockStruct) : Prop :=
  Blockchain.FewSameChars b
    ∨ (∃ v ∈ b.votes, v.origin ≠ own ∧ l.hasPeer v.origin = true)
      ∧ ∀ pk ∈ network, pk = own ∨ l.hasPeer pk = true

/-- The stake votes of all blocks above this height get through. -/
def VotesSent (own : Text) (network : List Text) (r : Blockchain) (h : Nat) : Prop :=
  ∀ j b, h ≤ j → r.chain[j]? = some b →
    VoteSent own network (Ledger.fresh.applyBlocks (r.chain.take (j + 1))) b

/-- Somebody of the network seems to be online, be it the node itself. -/
def SomebodyOnline (own : Text) (network : List Text) (turn : Turn) : Prop :=
  ∃ pk ∈ network, pk = own ∨ turn.isOnline pk = true

instance (own : Text) (network : List Text) (l : Ledger) (b : BlockStruct) :
    Decidable (VoteSent own network l b) :=
  inferInstanceAs (Decidable (_ ∨ (∃ v ∈ b.votes, _) ∧ ∀ pk ∈ network, _))

/-- **The node follows the peer**: it is running, it has the first blocks of the peer's
chain, and this is its list of the network. -/
structure Follows (crypto : Crypto) (own : Text) (genesis : BlockStruct) (network : List Text)
    (r : Blockchain) (n : Node) : Prop where
  running : n.halted = false
  runs : Runs crypto own genesis n.chain
  publicKey : n.chain.publicKey = own
  behind : Behind n.chain r
  network : n.arrayNetwork = network

variable {crypto verifyOther} {own publicKey : Text} {genesis : BlockStruct}
  {network : List Text} {n m : Node} {r : Blockchain} {config : ApiConfig}

theorem SomebodyOnline.seen {turn : Turn} (h : SomebodyOnline own network turn)
    (harray : n.arrayNetwork = network) (hown : n.chain.publicKey = own) :
    ∃ pk ∈ n.arrayNetwork, n.isOnline turn pk = true := by
  obtain ⟨pk, hmem, hseen⟩ := h
  refine ⟨pk, harray ▸ hmem, ?_⟩
  unfold isOnline
  rw [hown]
  rcases hseen with hself | honline
  · rw [decide_eq_true hself, Bool.true_or]
  · rw [honline, Bool.or_true]

/-- The hash before the next block has the size of those of the peer. -/
theorem Follows.sized (h : Follows crypto own genesis network r n) (hg : Founding crypto genesis)
    (hserves : Serves config r) {b : BlockStruct} (haccepts : n.chain.accepts crypto b = true) :
    b.previousHash.length = 43 := by
  obtain ⟨d, hd, hlatest, -⟩ := h.runs.last hg
  obtain ⟨-, hprevious, -⟩ := (Blockchain.accepts_iff crypto).mp haccepts
  rw [hlatest, Option.some.injEq] at hprevious
  obtain ⟨d', hd', hsame⟩ := List.mem_map.mp (h.behind.subset (List.mem_map_of_mem hd))
  have hhash := congrArg BlockStruct.hash hsame
  change d'.hash = d.hash at hhash
  rw [← hprevious, ← hhash]
  exact hserves.sized d' hd'

/-- **The call of `add` for the next block comes to its end.** -/
theorem Follows.finishes (h : Follows crypto own genesis network r n)
    (hg : Founding crypto genesis) (hr : Runs crypto publicKey genesis r)
    (hserves : Serves config r) {turn : Turn} (honline : SomebodyOnline own network turn)
    (hvotes : VotesSent own network r n.chain.height) {b : BlockStruct}
    (hb : r.chain[n.chain.chain.length]? = some b) : Finishes crypto n turn b := by
  have haccepts := h.behind.accepts hg.height.ge h.runs hr hb
  have hspec := applyCommands_spec crypto turn h.running b
  have hlength := (h.runs.indexed hg.height).length_chain
  set m := n.applyCommands crypto turn b with hm
  have hown : m.chain.publicKey = own := by
    rw [hspec.chain]
    exact h.publicKey
  have harray : m.arrayNetwork = network := hspec.arrayNetwork.trans h.network
  -- the hashes of the block can be compared, so somebody is found
  have hfindable : (m.withLast (n.written b)).Findable (m.isOnline turn) := by
    refine ⟨honline.seen harray hown, Or.inr ⟨n.written b, rfl, ?_, ?_⟩⟩
    · intro hnil
      have hsize := hserves.sized b (List.mem_of_getElem? hb)
      change b.hash = [] at hnil
      rw [hnil] at hsize
      exact nomatch hsize
    · exact (hserves.sized b (List.mem_of_getElem? hb)).trans
        (h.sized hg hserves haccepts).symm
  refine ⟨?_, hfindable⟩
  -- the ledger behind the block is the one the condition is about
  have hledger : m.chain.toLedger
      = Ledger.fresh.applyBlocks (r.chain.take (n.chain.chain.length + 1)) := by
    have hbefore : n.chain.toLedger
        = Ledger.fresh.applyBlocks (r.chain.take n.chain.chain.length) :=
      (h.runs.holds hg.height.ge).2.ledger.trans (Blockchain.applyBlocks_congr_votes h.behind.take)
    rw [hspec.chain, Blockchain.toLedger_setLedger, Ledger.processState_fst, hbefore,
      List.take_add_one, hb]
    exact (Ledger.applyBlocks_append _ _ [b]).symm
  have hsent := hvotes n.chain.chain.length b hlength.ge hb
  rw [← hledger] at hsent
  rcases hsent with hfew | ⟨⟨v, hv, hne, hpeer⟩, hknown⟩
  · exact Or.inl hfew
  · refine completes_of_voter (Or.inr ⟨hfindable, Or.inr (canBroadcast_iff.mpr ?_)⟩)
      (hown ▸ hne) (List.mem_map_of_mem hv) hpeer
    intro pk hpk
    show pk = m.chain.publicKey ∨ m.chain.hasPeer pk = true
    rw [hown]
    exact hknown pk (harray ▸ hpk)

/-- **The next block is applied**, and is at the end of the chain. -/
theorem addBlock_follows (h : Follows crypto own genesis network r n)
    (hg : Founding crypto genesis) (hr : Runs crypto publicKey genesis r)
    (hserves : Serves config r) {turn : Turn} (honline : SomebodyOnline own network turn)
    (hvotes : VotesSent own network r n.chain.height) {b : BlockStruct}
    (hb : r.chain[n.chain.chain.length]? = some b) :
    ∃ m, n.addBlock crypto verifyOther turn b.toJson = some m
      ∧ Follows crypto own genesis network r m ∧ m.chain.chain = n.chain.chain ++ [b] := by
  have hpos : 1 ≤ genesis.height := hg.height.ge
  have hsealed := (hr.lineage hg).whole b (List.mem_of_getElem? hb)
  have haccepts := h.behind.accepts hpos h.runs hr hb
  have hends := (applyBlock_halted_iff crypto turn h.running b).mpr
    (h.finishes hg hr hserves honline hvotes hb)
  obtain ⟨answer, hadd⟩ := applyBlock_adds crypto turn h.running haccepts hends
  have hchain := h.runs.chain_add hpos hadd
  refine ⟨n.applyBlock crypto turn b, ?_, ⟨hends, h.runs.add hadd, ?_, ?_, ?_⟩, hchain⟩
  · rw [addBlock_toJson _ _ hsealed.wellKeyed, if_pos haccepts]
    exact if_neg (by rw [hends]; exact Bool.false_ne_true)
  · exact (Blockchain.add_spec crypto hadd).publicKey.trans h.publicKey
  · exact h.behind.concat hb hchain
  · rw [applyBlock_eq crypto turn h.running, arrayNetwork_finishAdd]
    exact (applyCommands_spec crypto turn h.running b).arrayNetwork.trans h.network

theorem VotesSent.mono {h h' : Nat} (hle : h ≤ h') (hvotes : VotesSent own network r h) :
    VotesSent own network r h' := fun j b hj hb => hvotes j b (hle.trans hj) hb

/-- **The loop takes every block** of an answer that goes on where the node ends. -/
theorem syncBlocks_follows (verifyOther : Option Json → Option Json → Text → Bool)
    (hg : Founding crypto genesis) (hr : Runs crypto publicKey genesis r)
    (hserves : Serves config r) {turns : Nat → Turn}
    (honline : ∀ k, SomebodyOnline own network (turns k)) :
    ∀ {bs : List BlockStruct} {k : Nat} {n : Node}, Follows crypto own genesis network r n →
      VotesSent own network r n.chain.height → bs <+: r.chain.drop n.chain.chain.length →
        ∃ m, syncBlocks crypto verifyOther turns k n (bs.map BlockStruct.toJson) = some m
          ∧ Follows crypto own genesis network r m ∧ m.chain.chain = n.chain.chain ++ bs
  | [], _, n, h, _, _ => ⟨n, rfl, h, (List.append_nil _).symm⟩
  | b :: bs, k, n, h, hvotes, hpage => by
      obtain ⟨rest, hdrop⟩ := hpage
      have hb : r.chain[n.chain.chain.length]? = some b := by
        have hhead := congrArg List.head? hdrop
        rw [List.head?_drop] at hhead
        exact hhead.symm
      obtain ⟨p, hadd, hp, hchain⟩ := addBlock_follows h hg hr hserves (honline k) hvotes hb
      have hlength := congrArg List.length hchain
      rw [List.length_append, List.length_singleton] at hlength
      have hpage' : bs <+: r.chain.drop p.chain.chain.length := by
        refine ⟨rest, ?_⟩
        have htail := congrArg List.tail hdrop
        rw [List.tail_drop] at htail
        rw [hlength]
        exact htail
      have hheight : n.chain.height ≤ p.chain.height := by
        rw [← (h.runs.indexed hg.height).length_chain, ← (hp.runs.indexed hg.height).length_chain]
        omega
      obtain ⟨m, hrest, hm, hchain'⟩ :=
        syncBlocks_follows (k := k + 1) verifyOther hg hr hserves honline hp
          (hvotes.mono hheight) hpage'
      refine ⟨m, ?_, hm, ?_⟩
      · show ((n.addBlock crypto verifyOther (turns k) b.toJson).bind _) = some m
        rw [hadd]
        exact hrest
      · rw [hchain', hchain, List.append_assoc]
        rfl

/-! ## §4. Page after page. -/

/-- **One round brings one page.** -/
theorem syncRound_follows (verifyOther : Option Json → Option Json → Text → Bool)
    (h : Follows crypto own genesis network r n)
    (hg : Founding crypto genesis) (hr : Runs crypto publicKey genesis r)
    (hserves : Serves config r) {turns : Nat → Turn}
    (honline : ∀ k, SomebodyOnline own network (turns k))
    (hvotes : VotesSent own network r n.chain.height) :
    ∃ m, syncRound crypto verifyOther config r turns n = some m
      ∧ Follows crypto own genesis network r m
      ∧ m.chain.chain = n.chain.chain
        ++ (r.chain.drop n.chain.chain.length).take (config.networkSyncSize + 1) := by
  have hlength := (h.runs.indexed hg.height).length_chain
  have hlength' := (hr.indexed hg.height).length_chain
  unfold syncRound
  by_cases hless : n.chain.height < r.height
  · rw [if_pos hless, sync_serves hg.height hr hserves.copy hserves.room hless, ← hlength]
    obtain ⟨p, hblocks, hp, hchain⟩ := syncBlocks_follows (k := 0) verifyOther hg
      hr hserves honline h hvotes
      (List.take_prefix (config.networkSyncSize + 1) (r.chain.drop n.chain.chain.length))
    refine ⟨p.endSync, ?_, ⟨hp.running, hp.runs, hp.publicKey, hp.behind, hp.network⟩, hchain⟩
    exact Option.bind_eq_some_iff.mpr ⟨p, hblocks, rfl⟩
  · refine ⟨n, if_neg hless, h, ?_⟩
    rw [List.drop_of_length_le (by omega), List.take_nil, List.append_nil]

/-- **Some rounds bring as many pages**, or all that is missing. -/
theorem syncRounds_spec (verifyOther : Option Json → Option Json → Text → Bool)
    (h : Follows crypto own genesis network r n)
    (hg : Founding crypto genesis) (hr : Runs crypto publicKey genesis r)
    (hserves : Serves config r) {turns : Nat → Nat → Turn}
    (honline : ∀ i k, SomebodyOnline own network (turns i k))
    (hvotes : VotesSent own network r n.chain.height) (k : Nat) :
    ∃ m, syncRounds crypto verifyOther config r turns k n = some m
      ∧ Follows crypto own genesis network r m
      ∧ m.chain.chain = n.chain.chain
        ++ (r.chain.drop n.chain.chain.length).take (k * (config.networkSyncSize + 1)) := by
  induction k with
  | zero =>
      refine ⟨n, rfl, h, ?_⟩
      rw [Nat.zero_mul, List.take_zero, List.append_nil]
  | succ k ih =>
      obtain ⟨p, hbefore, hp, hchain⟩ := ih
      have hheight : n.chain.height ≤ p.chain.height := by
        rw [← (h.runs.indexed hg.height).length_chain, ← (hp.runs.indexed hg.height).length_chain,
          hchain, List.length_append]
        exact Nat.le_add_right ..
      obtain ⟨m, hround, hm, hchain'⟩ := syncRound_follows verifyOther hp hg hr
        hserves (honline k) (hvotes.mono hheight)
      refine ⟨m, Option.bind_eq_some_iff.mpr ⟨p, hbefore, hround⟩, hm, ?_⟩
      rw [hchain', hchain, List.append_assoc]
      congr 1
      set rest := r.chain.drop n.chain.chain.length
      have hdrop : r.chain.drop (n.chain.chain
          ++ rest.take (k * (config.networkSyncSize + 1))).length
          = rest.drop (k * (config.networkSyncSize + 1)) := by
        rw [List.length_append, ← List.drop_drop, List.length_take]
        rcases Nat.le_total (k * (config.networkSyncSize + 1)) rest.length with hle | hle
        · rw [Nat.min_eq_left hle]
        · rw [Nat.min_eq_right hle, List.drop_length, List.drop_of_length_le hle]
      rw [hdrop, Nat.succ_mul, List.take_add (i := k * (config.networkSyncSize + 1))]

open Blockchain (sampleLive sampleStart sampleCrypto sampleGenesis founding_sampleGenesis)

/-- The node that is behind, after one round with a peer that has one block more. -/
def caughtUp : Option Node :=
  syncRounds sampleCrypto neverVerifies (Config.make defaultSizes) (sampleLive 1 [1, 2])
    (fun _ _ => allOnline) 1 behindNode

end Node

end Divachain
