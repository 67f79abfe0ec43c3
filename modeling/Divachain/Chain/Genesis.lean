/-
  Divachain.Chain.Genesis — the genesis block of a new network.

  `Genesis.create` sets up the peers of a network one by one and lets every one
  of them join in its genesis block.  A network that is larger than a block may
  have votes is turned away.

  Main results:
    * `reset_fresh` — a new instance can be reset to any genesis block;
    * `create_peers` — the peers after the created block are the ones it was
      created for, with stake 1 each.
-/
import Divachain.Chain.Attainable

namespace Divachain

open DataKit

def MAX_NETWORK_SIZE : Nat := 16

/-! ## §1. A new instance over a genesis block. -/

namespace Blockchain

/-- Without peers no vote counts. -/
theorem countVotes_of_fresh {l : Ledger} (h : l.mapPeer = .empty) (votes : List VoteStruct)
    (mapVoteStake : OrdMap Text Nat) : votes.foldl (countVote l) mapVoteStake = mapVoteStake := by
  have hnobody : ∀ publicKey, l.hasPeer publicKey = false := by
    intro publicKey
    unfold Ledger.hasPeer
    rw [h]
    rfl
  induction votes with
  | nil => rfl
  | cons v votes ih =>
      have hskip : countVote l mapVoteStake v = mapVoteStake := by
        unfold countVote
        rw [hnobody, if_neg Bool.false_ne_true]
      rw [List.foldl_cons, hskip, ih]

/-- **A new instance can be reset to any genesis block**, whatever its votes are
and whatever the server answers. -/
theorem reset_fresh (publicKey : Text) (maxBlocks : Nat) (answers : Nat → Bool)
    (genesis : BlockStruct) :
    ∃ c, (fresh publicKey maxBlocks).reset answers genesis = some c
      ∧ c.toLedger = Ledger.fresh.applyTx genesis.tx ∧ c.publicKey = publicKey
      ∧ c.height = genesis.height ∧ c.latestBlock.map BlockStruct.hash = some genesis.hash
      ∧ c.latestBlock.map BlockStruct.height = some genesis.height := by
  set c₀ := ((fresh publicKey maxBlocks).clear.putBlock 1 genesis).rewind with hc₀
  have hcache : ∀ b, (c₀.updateCache (answers genesis.height) b).isSome = true := by
    intro b
    have hnone : ((c₀.cacheBlock b).countVotes b).stakeVote b = .skip := by
      refine if_pos ?_
      show (b.votes.foldl (countVote c₀.toLedger) .empty).size = 0
      rw [countVotes_of_fresh rfl]
      rfl
    unfold updateCache
    dsimp only
    rw [hnone]
    rfl
  have hreset : ((fresh publicKey maxBlocks).reset answers genesis).isSome = true := by
    show (c₀.replay answers [genesis]).isSome = true
    obtain ⟨d, hd⟩ := Option.isSome_iff_exists.mp
      (hcache { genesis with tx := (c₀.toLedger.processState genesis.tx).2 })
    unfold replay
    dsimp only
    rw [hd]
    rfl
  obtain ⟨c, hc⟩ := Option.isSome_iff_exists.mp hreset
  have hspec : ReplayedBy [genesis] c₀ c := replay_spec hc
  exact ⟨c, hc, hspec.ledger, hspec.publicKey, hspec.height, hspec.latest genesis rfl,
    hspec.top genesis rfl⟩

end Blockchain

/-! ## §2. `create`. -/

namespace Genesis

/-- What `create` reads of the configuration it has made, and the key of its wallet. -/
structure Config where
  http : Text
  udp : Text
  publicKey : Text
  deriving DecidableEq, Repr

def addPeer (s : Nat) (config : Config) : Command :=
  { seq := s
    body := .addPeer config.http config.udp config.publicKey
    keys := [.seq, .command, .http, .udp, .publicKey] }

/-- The genesis block over a file, and the configurations by key; `make` is what
`Config.make` and `Wallet.make` give for the `i`-th peer. -/
def create (crypto : Crypto) (make : Nat → Config) (SIZE_NETWORK : Nat) (file : BlockStruct) :
    Option (BlockStruct × OrdMap Text Config) :=
  if MAX_NETWORK_SIZE < SIZE_NETWORK then none
  else
    let genesis := Blockchain.genesis crypto file
    let configs := (List.range' 1 SIZE_NETWORK).map fun i => (i, make i)
    let map := configs.foldl (fun map c => map.set c.2.publicKey c.2) .empty
    let cmds := configs.map fun c => addPeer c.1 c.2
    let genesis := { genesis with
      tx := [{ ident := ['g', 'e', 'n', 'e', 's', 'i', 's']
               origin := zeros 43
               commands := cmds
               sig := zeros 86
               keys := TransactionStruct.fields }] }
    some ({ genesis with
      hash := crypto.hash
        (hashText genesis.version genesis.previousHash genesis.tx genesis.height) }, map)

variable {crypto : Crypto} {make : Nat → Config} {size : Nat} {file genesis : BlockStruct}
  {map : OrdMap Text Config}

/-- The configurations of the peers. -/
def configs (make : Nat → Config) (size : Nat) : List Config := (List.range' 1 size).map make

/-- What `create` gives. -/
structure Created (crypto : Crypto) (make : Nat → Config) (size : Nat)
    (file genesis : BlockStruct) : Prop where
  size_le : size ≤ MAX_NETWORK_SIZE
  /-- The file it is written to gives the same block again. -/
  reread : Blockchain.genesis crypto genesis = genesis
  commands : commandsOf genesis.tx
    = (List.range' 1 size).map fun i => (zeros 43, addPeer i (make i))

theorem created (h : create crypto make size file = some (genesis, map)) :
    Created crypto make size file genesis := by
  unfold create at h
  split at h
  next => cases h
  next hsize =>
    obtain ⟨rfl, rfl⟩ := Prod.mk.inj (Option.some.inj h)
    refine ⟨Nat.le_of_not_lt hsize, rfl, ?_⟩
    unfold commandsOf
    rw [List.flatMap_singleton, List.map_map, List.map_map]
    rfl

/-! ## §3. Its peers. -/

/-- A peer as it joins. -/
def peer (config : Config) : Peer := ⟨config.publicKey, config.http, config.udp, 1⟩

/-- **Peers with new keys all join.** -/
theorem foldl_addPeer :
    ∀ {cs : List Config} {l : Ledger}, (cs.map Config.publicKey).Nodup →
      (∀ c ∈ cs, l.hasPeer c.publicKey = false) →
        let l' := cs.foldl (fun l c => l.addPeer c.http c.udp c.publicKey) l
        l'.mapPeer.entries = l.mapPeer.entries ++ cs.map (fun c => (c.publicKey, peer c))
          ∧ l'.quorumWeighted = l.quorumWeighted + cs.length
  | [], l, _, _ => ⟨(List.append_nil _).symm, (add_zero _).symm⟩
  | c :: cs, l, hnodup, hnew => by
      obtain ⟨hc, hnodup⟩ := List.nodup_cons.mp hnodup
      have hhas : l.hasPeer c.publicKey = false := hnew c List.mem_cons_self
      have hjoin : l.addPeer c.http c.udp c.publicKey = l.join c.http c.udp c.publicKey :=
        if_neg (by rw [show l.mapPeer.has c.publicKey = false from hhas]; exact Bool.false_ne_true)
      have hentries : (l.join c.http c.udp c.publicKey).mapPeer.entries
          = l.mapPeer.entries ++ [(c.publicKey, peer c)] := OrdMap.entries_set_of_not_has hhas _
      obtain ⟨hrest, htotal⟩ := foldl_addPeer (l := l.join c.http c.udp c.publicKey) hnodup
        fun d hd => by
          have hne : d.publicKey ≠ c.publicKey := fun heq => hc (heq ▸ List.mem_map_of_mem hd)
          rw [Ledger.hasPeer_join, decide_eq_false hne, Bool.false_or]
          exact hnew d (List.mem_cons_of_mem c hd)
      dsimp only
      rw [List.foldl_cons, hjoin, hrest, htotal, hentries, List.append_assoc]
      refine ⟨rfl, ?_⟩
      show l.quorumWeighted + 1 + _ = _
      rw [List.length_cons, Nat.cast_add, Nat.cast_one]
      omega

/-- **The peers after the created block** are the ones it was created for, in this
order and with stake 1 each, if their keys are different. -/
theorem create_peers (h : Created crypto make size file genesis)
    (hkeys : ((configs make size).map Config.publicKey).Nodup) :
    (Ledger.fresh.applyTx genesis.tx).mapPeer.entries
        = (configs make size).map (fun c => (c.publicKey, peer c))
      ∧ (Ledger.fresh.applyTx genesis.tx).quorumWeighted = size := by
  have hcommands : Ledger.fresh.applyTx genesis.tx
      = (configs make size).foldl (fun l c => l.addPeer c.http c.udp c.publicKey) Ledger.fresh := by
    unfold Ledger.applyTx configs
    rw [h.commands, List.foldl_map, List.foldl_map]
    rfl
  obtain ⟨hentries, htotal⟩ := foldl_addPeer (l := Ledger.fresh) hkeys fun _ _ => rfl
  rw [hcommands]
  refine ⟨hentries, ?_⟩
  rw [htotal]
  unfold configs
  rw [List.length_map, List.length_range']
  exact Int.zero_add _

end Genesis

end Divachain
