/-
  Divachain.Chain.Persistence — writes that reject.

  The three write helpers catch what the database throws and log it: the call
  goes on as if the write had succeeded.  `Writes` says which writes of a call
  succeed; `addWith`, `initWith` and `resetWith` are the calls under it, and with
  every write succeeding they are `add`, `init` and `reset`.  Clearing a database
  is not caught, and neither is the stake vote: the call throws there, and leaves
  the instance as it is by then.

  Main result: everything accepted is persisted, and the next start rebuilds it,
  if and only if every put of an accepted block has succeeded, no `reset` has
  broken off between its two clears since, and no hash of a block after the first
  starts a stake vote.
-/
import Divachain.Chain.Tally
import Divachain.Lib.WriteLog
import Divachain.Net.Startup

namespace Divachain

open DataKit

/-! ## §1. The calls. -/

/-- Which writes of a call succeed. -/
structure Writes where
  /-- `dbBlockchain.clear()`. -/
  clearBlocks : Bool
  /-- `dbState.clear()` in `clear`. -/
  clearState : Bool
  /-- `dbState.clear()` in `init`. -/
  initState : Bool
  /-- The put of the block. -/
  block : Bool
  /-- The writes to `dbState`, in their order. -/
  state : Nat → Bool

def Writes.succeed : Writes := ⟨true, true, true, true, fun _ => true⟩

namespace Ledger

/-- A command writes to `dbState` once at most.  Where that rejects, everything
else goes on. -/
def applyIf (l : Ledger) (ok : Bool) (oc : Text × Command) : Ledger :=
  if ok then l.apply oc else { l.apply oc with dbState := l.dbState }

/-- The commands of a list, the first of which is the `k`-th of its call. -/
def applyWrites (state : Nat → Bool) : Nat → Ledger → List (Text × Command) → Ledger
  | _, l, [] => l
  | k, l, oc :: cs => applyWrites state (k + 1) (l.applyIf (state k) oc) cs

theorem applyWrites_succeed :
    ∀ (k : Nat) (l : Ledger) (cs : List (Text × Command)),
      applyWrites (fun _ => true) k l cs = cs.foldl apply l
  | _, _, [] => rfl
  | k, l, oc :: cs => applyWrites_succeed (k + 1) (l.apply oc) cs

/-- Who is a peer does not depend on `dbState`. -/
theorem hasPeer_applyWrites (state : Nat → Bool) (publicKey : Text) :
    ∀ (k : Nat) (l : Ledger) (cs : List (Text × Command)),
      (applyWrites state k l cs).hasPeer publicKey
        = ((cs.filterMap (moveOf publicKey)).getLast?).getD (l.hasPeer publicKey)
  | _, _, [] => rfl
  | k, l, oc :: cs => by
      have hone : (l.applyIf (state k) oc).hasPeer publicKey
          = (moveOf publicKey oc).getD (l.hasPeer publicKey) := by
        unfold applyIf
        split
        · exact hasPeer_apply l oc publicKey
        · exact hasPeer_apply l oc publicKey
      rw [applyWrites, hasPeer_applyWrites state publicKey (k + 1), hone]
      cases hmove : moveOf publicKey oc with
      | none => rw [List.filterMap_cons_none hmove, Option.getD_none]
      | some joined =>
          rw [List.filterMap_cons_some hmove, List.getLast?_cons, Option.getD_some,
            Option.getD_some]

end Ledger

namespace Blockchain

variable (crypto : Crypto)

/-- `updateBlockData`. -/
def putBlockIf (c : Blockchain) (ok : Bool) (key : Nat) (b : BlockStruct) : Blockchain :=
  if ok then c.putBlock key b else c

/-- What the stake vote leaves, and whether the call goes on; `none` is a server
whose `proposeModifyStake` throws or hangs. -/
def settleWith (answer : Option Bool) (c : Blockchain) : StakeVote → Blockchain × Bool
  | .skip => (c, true)
  | .throws => (c, false)
  | .propose publicKey =>
      match answer with
      | some answer => (if answer then c.dropVote publicKey else c, true)
      | none => (c, false)

def updateCacheWith (answer : Option Bool) (c : Blockchain) (b : BlockStruct) :
    Blockchain × Bool :=
  let c := (c.cacheBlock b).countVotes b
  c.settleWith answer (c.stakeVote b)

/-- `add`: `none` where it returns false, else the instance and whether it returns
true or throws.  What is written back to the commands does not depend on
`dbState`. -/
def addWith (w : Writes) (c : Blockchain) (b : BlockStruct) (answer : Option Bool) :
    Option (Blockchain × Bool) :=
  if c.accepts crypto b then
    let l := c.toLedger.applyWrites w.state 0 (commandsOf b.tx)
    let tx := (c.toLedger.processState b.tx).2
    some (((c.putBlockIf w.block b.height b).setLedger l).updateCacheWith answer
      { b with tx := tx })
  else none

/-- The loop of `init`; `k` counts the commands it has applied. -/
def replayWith (state : Nat → Bool) (answers : Nat → Option Bool) :
    Nat → Blockchain → List BlockStruct → Blockchain × Bool
  | _, c, [] => (c, true)
  | k, c, b :: bs =>
      let l := c.toLedger.applyWrites state k (commandsOf b.tx)
      let tx := (c.toLedger.processState b.tx).2
      match c.updateCacheWith (answers b.height) { b with tx := tx } with
      | (c', true) => replayWith state answers (k + (commandsOf b.tx).length) (c'.setLedger l) bs
      -- the block is cached, and its commands are not applied
      | (c', false) => (c', false)

def initWith (w : Writes) (answers : Nat → Option Bool) (c : Blockchain) : Blockchain × Bool :=
  if w.initState then replayWith w.state answers 0 c.rewind c.dbBlockchain.values
  else ({ c.rewind with dbState := c.dbState }, false)

/-- `reset`: the two databases are cleared one after the other, and the fields after
both of them. -/
def resetWith (w : Writes) (answers : Nat → Option Bool) (c : Blockchain) (genesis : BlockStruct) :
    Blockchain × Bool :=
  if w.clearBlocks then
    if w.clearState then (c.clear.putBlockIf w.block 1 genesis).initWith w answers
    else ({ c with dbBlockchain := .empty }, false)
  else (c, false)

/-- A new process over the store the last one left.  Its server has no network yet,
and cannot be asked. -/
def restartWith (w : Writes) (maxBlocks : Nat) (c : Blockchain) : Blockchain × Bool :=
  (withStore c.publicKey maxBlocks c.dbBlockchain).initWith w fun _ => none

/-! ## §2. With every write succeeding they are the calls without. -/

/-- The instance a call leaves, if it does not throw. -/
def returned (r : Blockchain × Bool) : Option Blockchain := if r.2 then some r.1 else none

theorem returned_updateCacheWith (c : Blockchain) (b : BlockStruct) (answer : Bool) :
    returned (c.updateCacheWith (some answer) b) = c.updateCache answer b := by
  unfold updateCacheWith updateCache
  dsimp only
  cases ((c.cacheBlock b).countVotes b).stakeVote b with
  | skip => rfl
  | throws => rfl
  | propose publicKey => rfl

/-- A server without a network. -/
theorem returned_updateCacheWith_none (c : Blockchain) (b : BlockStruct) :
    returned (c.updateCacheWith none b) = c.updateCacheAt .new b := by
  unfold updateCacheWith updateCacheAt
  dsimp only
  cases ((c.cacheBlock b).countVotes b).stakeVote b with
  | skip => rfl
  | throws => rfl
  | propose publicKey => rfl

theorem addWith_succeed (c : Blockchain) (b : BlockStruct) (answer : Bool) :
    ((c.addWith crypto .succeed b (some answer)).elim .rejected fun r =>
      (returned r).elim .throws .added) = c.add crypto b answer := by
  unfold addWith Blockchain.add
  split
  · dsimp only [Writes.succeed]
    rw [Ledger.applyWrites_succeed, Ledger.processState_fst, Option.elim_some,
      returned_updateCacheWith]
    show (((c.putBlock b.height b).setLedger (c.toLedger.applyTx b.tx)).updateCache answer
      { b with tx := (c.toLedger.processState b.tx).2 }).elim AddResult.throws AddResult.added = _
    cases (((c.putBlock b.height b).setLedger (c.toLedger.applyTx b.tx)).updateCache answer
      { b with tx := (c.toLedger.processState b.tx).2 }) <;> rfl
  · rfl

theorem replayWith_succeed (answers : Nat → Bool) :
    ∀ (k : Nat) (c : Blockchain) (bs : List BlockStruct),
      returned (replayWith (fun _ => true) (fun height => some (answers height)) k c bs)
        = replay answers c bs
  | _, _, [] => rfl
  | k, c, b :: bs => by
      unfold replayWith replay
      dsimp only
      rw [← returned_updateCacheWith, Ledger.applyWrites_succeed, Ledger.processState_fst]
      set r := c.updateCacheWith (some (answers b.height))
        { b with tx := (c.toLedger.processState b.tx).2 } with hr
      obtain ⟨c', ok⟩ := r
      cases ok with
      | false => rfl
      | true => exact replayWith_succeed answers _ _ bs

theorem resetWith_succeed (answers : Nat → Bool) (c : Blockchain) (genesis : BlockStruct) :
    returned (c.resetWith .succeed (fun height => some (answers height)) genesis)
      = c.reset answers genesis :=
  replayWith_succeed answers 0 _ _

/-! ## §3. What the calls do to the chain, whatever rejects. -/

theorem updateCacheWith_spec (answer : Option Bool) (c : Blockchain) (b : BlockStruct) :
    CachedBy b c (c.updateCacheWith answer b).1 := by
  unfold updateCacheWith settleWith
  dsimp only
  split
  · exact ⟨rfl, rfl, rfl, rfl, rfl, rfl, rfl⟩
  · exact ⟨rfl, rfl, rfl, rfl, rfl, rfl, rfl⟩
  · split
    next answer => cases answer <;> exact ⟨rfl, rfl, rfl, rfl, rfl, rfl, rfl⟩
    next => exact ⟨rfl, rfl, rfl, rfl, rfl, rfl, rfl⟩

/-- What a call of `addWith` has done that does not return false. -/
structure AddedWith (w : Writes) (b : BlockStruct) (c c' : Blockchain) : Prop where
  accepts : c.accepts crypto b = true
  ledger : c'.toLedger = c.toLedger.applyWrites w.state 0 (commandsOf b.tx)
  dbBlockchain : c'.dbBlockchain = (c.putBlockIf w.block b.height b).dbBlockchain
  height : c'.height = b.height
  latest : c'.latestBlock.map BlockStruct.hash = some b.hash

theorem addWith_spec {w : Writes} {answer : Option Bool} {c c' : Blockchain} {b : BlockStruct}
    {ok : Bool} (h : c.addWith crypto w b answer = some (c', ok)) :
    AddedWith crypto w b c c' := by
  unfold addWith at h
  split at h
  next haccepts =>
    have hspec := updateCacheWith_spec answer ((c.putBlockIf w.block b.height b).setLedger
      (c.toLedger.applyWrites w.state 0 (commandsOf b.tx)))
      { b with tx := (c.toLedger.processState b.tx).2 }
    rw [show _ = (c', ok) from Option.some.inj h] at hspec
    refine ⟨haccepts, hspec.ledger, hspec.dbBlockchain, hspec.height, ?_⟩
    rw [show c'.latestBlock = _ from hspec.latestBlock]
    rfl
  next => exact nomatch h

variable {crypto}

/-- What a replay leaves that comes to its end. -/
structure Rebuilt (bs : List BlockStruct) (c c' : Blockchain) : Prop where
  dbBlockchain : c'.dbBlockchain = c.dbBlockchain
  height : c'.height = (bs.getLast?.map BlockStruct.height).getD c.height
  latest : c'.latestBlock.map BlockStruct.hash
    = (bs.getLast?.map BlockStruct.hash).or (c.latestBlock.map BlockStruct.hash)

theorem replayWith_spec {state : Nat → Bool} {answers : Nat → Option Bool} :
    ∀ {k : Nat} {c c' : Blockchain} {bs : List BlockStruct},
      replayWith state answers k c bs = (c', true) → Rebuilt bs c c'
  | _, c, c', [], h => by
      obtain rfl := congrArg Prod.fst h
      exact ⟨rfl, rfl, rfl⟩
  | k, c, c', b :: bs, h => by
      unfold replayWith at h
      dsimp only at h
      have hcached := updateCacheWith_spec (answers b.height) c
        { b with tx := (c.toLedger.processState b.tx).2 }
      split at h
      next d hcache =>
        rw [hcache] at hcached
        have hrest := replayWith_spec h
        refine ⟨hrest.dbBlockchain.trans hcached.dbBlockchain, ?_, ?_⟩
        -- The fold keeps the last block seen; `d` is what an empty rest leaves.
        · rw [hrest.height, List.getLast?_cons]
          show (bs.getLast?.map BlockStruct.height).getD d.height = _
          rw [show d.height = _ from hcached.height]
          cases bs.getLast? <;> rfl
        · rw [hrest.latest, List.getLast?_cons]
          show (bs.getLast?.map BlockStruct.hash).or (d.latestBlock.map BlockStruct.hash) = _
          rw [show d.latestBlock = _ from hcached.latestBlock]
          cases bs.getLast? <;> rfl
      next => exact nomatch congrArg Prod.snd h

/-! ## §4. When the next start completes. -/

/-- **Once votes are counted, a hash decides.** -/
theorem updateCacheWith_completes_iff {c : Blockchain} {b : BlockStruct}
    (hvotes : (c.countVotes b).mapVoteStake.size ≠ 0) :
    (c.updateCacheWith none b).2 = true ↔ FewSameChars b := by
  rw [← updateCacheAt_isSome_iff hvotes, ← returned_updateCacheWith_none]
  unfold returned
  cases (c.updateCacheWith none b).2 with
  | false => exact iff_of_false Bool.false_ne_true Bool.false_ne_true
  | true => exact iff_of_true rfl rfl

/-- A vote that has been counted stays, where nobody can be asked. -/
theorem mapVoteStake_updateCacheWith (c : Blockchain) (b : BlockStruct) :
    (c.updateCacheWith none b).1.mapVoteStake = (c.countVotes b).mapVoteStake := by
  unfold updateCacheWith settleWith
  dsimp only
  split <;> rfl

/-- **The rest of a replay**, from the first block on whose votes count. -/
theorem replayWith_completes_iff (state : Nat → Bool) :
    ∀ {k : Nat} {c : Blockchain} {bs : List BlockStruct},
      (∀ b ∈ bs.head?, (c.countVotes b).mapVoteStake.size ≠ 0) →
        ((replayWith state (fun _ => none) k c bs).2 = true ↔ ∀ b ∈ bs, FewSameChars b)
  | _, c, [], _ => iff_of_true rfl fun b hb => nomatch hb
  | k, c, b :: bs, hvotes => by
      set b' : BlockStruct := { b with tx := (c.toLedger.processState b.tx).2 } with hb'
      have hsize : (c.countVotes b').mapVoteStake.size ≠ 0 := hvotes b rfl
      have hfirst : (c.updateCacheWith none b').2 = true ↔ FewSameChars b :=
        updateCacheWith_completes_iff hsize
      have hcounted := mapVoteStake_updateCacheWith c b'
      rw [List.forall_mem_cons, ← hfirst]
      unfold replayWith
      dsimp only
      rw [← hb']
      generalize c.updateCacheWith none b' = r at hcounted ⊢
      obtain ⟨d, ok⟩ := r
      cases ok with
      | false => exact iff_of_false Bool.false_ne_true fun h => Bool.false_ne_true h.1
      | true =>
          -- Votes once counted stay counted, so the table is not empty for the blocks after.
          have hnext : ∀ b₂ ∈ bs.head?, ((d.setLedger (c.toLedger.applyWrites state k
              (commandsOf b.tx))).countVotes b₂).mapVoteStake.size ≠ 0 := by
            intro b₂ _
            refine size_countVotes_ne_zero (Or.inl ?_)
            show d.mapVoteStake.size ≠ 0
            rw [show d.mapVoteStake = _ from hcounted]
            exact hsize
          have hrest := replayWith_completes_iff state
            (k := k + (commandsOf b.tx).length) hnext
          dsimp only
          rw [hrest]
          exact ⟨fun h => ⟨rfl, h⟩, fun h => h.2⟩

/-- **The next start over a store** completes exactly if no hash after the first
block starts a stake vote.  Somebody has voted for the second block who is a peer
after the first. -/
theorem restart_replay_iff {state : Nat → Bool} {c : Blockchain} {genesis : BlockStruct}
    {rest : List BlockStruct} (hledger : c.toLedger = Ledger.fresh)
    (hvotes : c.mapVoteStake = .empty)
    (hknown : ∀ b ∈ rest.head?, ∃ v ∈ b.votes,
      (Ledger.fresh.applyTx genesis.tx).hasPeer v.origin = true) :
    (replayWith state (fun _ => none) 0 c (genesis :: rest)).2 = true
      ↔ ∀ b ∈ rest, FewSameChars b := by
  set genesis' : BlockStruct := { genesis with tx := (c.toLedger.processState genesis.tx).2 }
    with hgenesis
  have hpeers : c.mapPeer = .empty := congrArg Ledger.mapPeer hledger
  have hfirst : returned (c.updateCacheWith none genesis') = some (c.cacheBlock genesis') :=
    (returned_updateCacheWith_none c genesis').trans (updateCacheAt_genesis hpeers hvotes _)
  have hpair : c.updateCacheWith none genesis' = (c.cacheBlock genesis', true) := by
    unfold returned at hfirst
    split at hfirst
    next hok => exact Prod.ext (Option.some.inj hfirst) hok
    next => exact nomatch hfirst
  unfold replayWith
  dsimp only
  rw [← hgenesis, hpair]
  refine replayWith_completes_iff state ?_
  intro b hb
  obtain ⟨v, hv, hpeer⟩ := hknown b hb
  refine size_countVotes_ne_zero (Or.inr ⟨v, hv, ?_⟩)
  show (c.toLedger.applyWrites state 0 (commandsOf genesis.tx)).hasPeer v.origin = true
  rw [Ledger.hasPeer_applyWrites, hledger]
  rw [Ledger.hasPeer_applyTx] at hpeer
  exact hpeer

/-! ## §5. The ledger of an instance, whatever rejects. -/

/-- What a reset leaves of the total does not make it negative. -/
structure Backed (l : Ledger) : Prop where
  surplus : 0 ≤ surplus l
  nonneg : NonnegStakes l

theorem backed_fresh : Backed Ledger.fresh := ⟨Int.le_refl 0, fun _ h => absurd h List.not_mem_nil⟩

theorem Backed.total_nonneg {l : Ledger} (h : Backed l) : 0 ≤ l.quorumWeighted := by
  have hsurplus := h.surplus
  have hstakes := h.nonneg.total_nonneg
  unfold Divachain.surplus at hsurplus
  omega

/-- A ledger without its peers. -/
theorem Backed.clear {l : Ledger} (h : Backed l) (dbState : Store Text Text) :
    Backed { l with mapPeer := .empty, dbState := dbState } := by
  refine ⟨?_, fun _ hmem => absurd hmem List.not_mem_nil⟩
  show 0 ≤ l.quorumWeighted - 0
  have htotal := h.total_nonneg
  omega

theorem Backed.applyIf {l : Ledger} (h : Backed l) (ok : Bool) (oc : Text × Command) :
    Backed (l.applyIf ok oc) := by
  have hsurplus := surplus_apply l oc
  have hnonneg := nonnegStakes_apply h.nonneg oc
  unfold Ledger.applyIf
  split
  · exact ⟨hsurplus ▸ h.surplus, hnonneg⟩
  · refine ⟨?_, hnonneg⟩
    show 0 ≤ Divachain.surplus (l.apply oc)
    rw [hsurplus]
    exact h.surplus

theorem Backed.applyWrites (state : Nat → Bool) :
    ∀ {k : Nat} {l : Ledger} {cs : List (Text × Command)}, Backed l →
      Backed (l.applyWrites state k cs)
  | _, _, [], h => h
  | k, l, oc :: cs, h => by
      rw [Ledger.applyWrites]
      exact Backed.applyWrites state (h.applyIf (state k) oc)

/-- **Somebody known has voted** for a block that passes. -/
theorem Backed.exists_peer {l : Ledger} (h : Backed l) {b : BlockStruct}
    (hquorum : QuorumVotes crypto l b) : ∃ v ∈ b.votes, l.hasPeer v.origin = true := by
  obtain ⟨publicKey, hmem, hstake⟩ := exists_staked_of_nonneg h.total_nonneg hquorum.quorum
  obtain ⟨v, hv, rfl⟩ := List.mem_map.mp hmem
  obtain ⟨peer, hpeer, -⟩ := exists_peer_of_getStake_pos hstake
  refine ⟨v, hv, ?_⟩
  rw [Ledger.hasPeer, OrdMap.has, hpeer]
  rfl

/-! ## §6. Runs. -/

/-- A block with which the chain has advanced. -/
structure Accepted where
  block : BlockStruct
  /-- Its put has succeeded. -/
  stored : Bool
  /-- A `reset` has cleared the blocks since, and has broken off before it has
  cleared anything else. -/
  lost : Bool
  before : Blockchain
  after : Blockchain

namespace Accepted

def lose (a : Accepted) : Accepted := { a with lost := true }

/-- The block of an item, and whether it stands in the store. -/
def write (a : Accepted) : BlockStruct × Bool := (a.block, a.stored && !a.lost)

end Accepted

/-- What is accepted after a call of `reset`.  Where that throws before the last
clear, the instance goes on with the chain it has had. -/
def acceptedByReset (w : Writes) (genesis : BlockStruct) (c c' : Blockchain)
    (acc : List Accepted) : List Accepted :=
  if w.clearBlocks then
    if w.clearState then if w.initState && w.block then [⟨genesis, true, false, c, c'⟩] else []
    else acc.map Accepted.lose
  else acc

/-- The states of an instance whose writes may reject, with what it has accepted
since its last reset.  A call that throws is a step like one that returns. -/
inductive Writing (crypto : Crypto) (publicKey : Text) : Blockchain → List Accepted → Prop where
  | boot {maxBlocks : Nat} : Writing crypto publicKey (fresh publicKey maxBlocks) []
  | reset {w : Writes} {answers : Nat → Option Bool} {genesis : BlockStruct} {c : Blockchain}
      {acc : List Accepted} (hc : Writing crypto publicKey c acc) (hg : genesis.height = 1) :
      Writing crypto publicKey (c.resetWith w answers genesis).1
        (acceptedByReset w genesis c (c.resetWith w answers genesis).1 acc)
  | add {w : Writes} {answer : Option Bool} {b : BlockStruct} {c c' : Blockchain} {ok : Bool}
      {acc : List Accepted} (hc : Writing crypto publicKey c acc)
      (h : c.addWith crypto w b answer = some (c', ok)) :
      Writing crypto publicKey c' (acc ++ [⟨b, w.block, false, c, c'⟩])

/-- **The store has exactly the accepted blocks whose put has succeeded**, since it has
been cleared last. -/
structure Kept (c : Blockchain) (acc : List Accepted) : Prop where
  height : c.height = acc.length
  latest : c.latestBlock.map BlockStruct.hash = acc.getLast?.map fun a => a.block.hash
  heights : ∀ k a, acc[k]? = some a → a.block.height = k + 1
  recorded : acc ≠ [] → Recorded c.dbBlockchain (acc.map Accepted.write)
  advanced : ∀ a ∈ acc, a.stored = false → a.after.height = a.before.height + 1
  backed : Backed c.toLedger
  /-- Every peer is one of the chain that has been accepted. -/
  peers : ∀ publicKey, c.hasPeer publicKey = true →
    (Ledger.fresh.applyBlocks (acc.map Accepted.block)).hasPeer publicKey = true
  /-- Somebody has voted for the second block who is a peer after the first. -/
  known : ∀ g b rest, acc = g :: b :: rest →
    ∃ v ∈ b.block.votes, (Ledger.fresh.applyTx g.block.tx).hasPeer v.origin = true

theorem kept_fresh (publicKey : Text) (maxBlocks : Nat) : Kept (fresh publicKey maxBlocks) [] where
  height := rfl
  latest := rfl
  heights := fun _ _ h => nomatch h
  recorded := fun h => absurd rfl h
  advanced := fun _ h => nomatch h
  backed := backed_fresh
  peers := fun _ h => h
  known := fun _ _ _ h => nomatch h

/-- Nothing is accepted yet, and nobody is a peer. -/
theorem Kept.nothing {c : Blockchain} (hheight : c.height = 0) (hlatest : c.latestBlock = none)
    (hbacked : Backed c.toLedger) (hpeers : c.mapPeer = .empty) : Kept c [] where
  height := hheight
  latest := by
    rw [hlatest]
    rfl
  heights := fun _ _ h => nomatch h
  recorded := fun h => absurd rfl h
  advanced := fun _ h => nomatch h
  backed := hbacked
  peers := fun publicKey h => by
    rw [Ledger.hasPeer, hpeers] at h
    exact h
  known := fun _ _ _ h => nomatch h

/-- Only the store is gone. -/
theorem Kept.lose {c : Blockchain} {acc : List Accepted} (h : Kept c acc) :
    Kept { c with dbBlockchain := .empty } (acc.map Accepted.lose) where
  height := by
    rw [List.length_map]
    exact h.height
  latest := by
    rw [List.getLast?_map, Option.map_map]
    exact h.latest
  heights := fun k a ha => by
    rw [List.getElem?_map, Option.map_eq_some_iff] at ha
    obtain ⟨a', ha', rfl⟩ := ha
    exact h.heights k a' ha'
  recorded := fun _ => by
    have hempty := Recorded.emptied (acc.map Accepted.write)
    rw [List.map_map] at hempty ⊢
    have hwrites : (Accepted.write ∘ Accepted.lose)
        = (fun w : BlockStruct × Bool => (w.1, false)) ∘ Accepted.write := by
      funext a
      show (a.block, a.stored && false) = (a.block, false)
      rw [Bool.and_false]
    rw [hwrites]
    exact hempty
  advanced := fun a ha hstored => by
    obtain ⟨a', ha', rfl⟩ := List.mem_map.mp ha
    exact h.advanced a' ha' hstored
  backed := h.backed
  peers := fun publicKey hpeer => by
    rw [List.map_map]
    exact h.peers publicKey hpeer
  known := fun g b rest hacc => by
    obtain ⟨g', rest', rfl, rfl, hrest⟩ := List.map_eq_cons_iff.mp hacc
    obtain ⟨b', rest'', rfl, rfl, -⟩ := List.map_eq_cons_iff.mp hrest
    exact h.known g' b' rest'' rfl

/-- The instance once its databases and its fields are cleared, and the block is put. -/
theorem backed_cleared {c : Blockchain} (h : Backed c.toLedger) (ok : Bool)
    (genesis : BlockStruct) :
    Backed (c.clear.putBlockIf ok 1 genesis).toLedger
      ∧ (c.clear.putBlockIf ok 1 genesis).mapPeer = .empty := by
  unfold putBlockIf
  cases ok with
  | false => exact ⟨h.clear _, rfl⟩
  | true => exact ⟨h.clear _, rfl⟩

/-- The genesis block alone stands in the store and in the fields. -/
theorem Kept.single {genesis : BlockStruct} {c e : Blockchain} (hg : genesis.height = 1)
    (hheight : e.height = genesis.height)
    (hlatest : e.latestBlock.map BlockStruct.hash = some genesis.hash)
    (hstore : e.dbBlockchain = Store.empty.put 1 genesis) (hbacked : Backed e.toLedger)
    (hpeers : ∀ publicKey, e.hasPeer publicKey = true →
      (Ledger.fresh.applyTx genesis.tx).hasPeer publicKey = true) :
    Kept e [⟨genesis, true, false, c, e⟩] where
  height := hheight.trans hg
  latest := hlatest
  heights := fun k a ha => by
    obtain ⟨hk, rfl⟩ := List.getElem?_eq_some_iff.mp ha
    have hzero : k = 0 := by simpa using hk
    subst hzero
    exact hg
  recorded := fun _ => by
    rw [hstore]
    exact Recorded.empty.written genesis
  advanced := fun a ha hstored => by
    obtain rfl := List.mem_singleton.mp ha
    exact absurd hstored.symm Bool.false_ne_true
  backed := hbacked
  peers := hpeers
  known := fun _ b rest hacc => absurd (List.cons.inj hacc).2.symm (List.cons_ne_nil b rest)

/-- **A replay over the genesis block**: it is cached, whether its stake vote throws
or not. -/
theorem Kept.replayed {state : Nat → Bool} {answers : Nat → Option Bool} {genesis : BlockStruct}
    {c d : Blockchain} (hg : genesis.height = 1)
    (hstore : d.dbBlockchain = Store.empty.put 1 genesis) (hbacked : Backed d.toLedger)
    (hpeers : d.mapPeer = .empty) :
    Kept (replayWith state answers 0 d [genesis]).1
      [⟨genesis, true, false, c, (replayWith state answers 0 d [genesis]).1⟩] := by
  have hnobody : ∀ publicKey, d.hasPeer publicKey = false := by
    intro publicKey
    rw [Ledger.hasPeer, hpeers]
    rfl
  set genesis' : BlockStruct := { genesis with tx := (d.toLedger.processState genesis.tx).2 }
    with hgenesis
  have hcached := updateCacheWith_spec (answers genesis.height) d genesis'
  unfold replayWith
  dsimp only
  rw [← hgenesis]
  generalize d.updateCacheWith (answers genesis.height) genesis' = r at hcached ⊢
  obtain ⟨e, ok⟩ := r
  have hledger : e.toLedger = d.toLedger := hcached.ledger
  have hlatest : e.latestBlock.map BlockStruct.hash = some genesis.hash := by
    rw [show e.latestBlock = some genesis' from hcached.latestBlock]
    rfl
  have hstored : e.dbBlockchain = Store.empty.put 1 genesis := hcached.dbBlockchain.trans hstore
  cases ok with
  | false =>
      -- the commands are not applied
      refine Kept.single hg hcached.height hlatest hstored (hledger ▸ hbacked) ?_
      intro publicKey hpeer
      rw [hledger, hnobody] at hpeer
      exact absurd hpeer Bool.false_ne_true
  | true =>
      refine Kept.single (e := e.setLedger (d.toLedger.applyWrites state 0 (commandsOf genesis.tx)))
        hg hcached.height hlatest hstored (hbacked.applyWrites state) ?_
      intro publicKey hpeer
      have happlied : (d.toLedger.applyWrites state 0 (commandsOf genesis.tx)).hasPeer publicKey
          = true := hpeer
      rw [Ledger.hasPeer_applyWrites, hnobody] at happlied
      rw [Ledger.hasPeer_applyTx]
      exact happlied

theorem Kept.reset {w : Writes} {answers : Nat → Option Bool} {genesis : BlockStruct}
    {c : Blockchain} {acc : List Accepted} (hc : Kept c acc) (hg : genesis.height = 1) :
    Kept (c.resetWith w answers genesis).1
      (acceptedByReset w genesis c (c.resetWith w answers genesis).1 acc) := by
  unfold acceptedByReset resetWith initWith
  -- The cases are the places at which the call can throw, in their order.
  cases hblocks : w.clearBlocks with
  | false => exact hc
  | true =>
  cases hstate : w.clearState with
  | false => exact hc.lose
  | true =>
  obtain ⟨hbacked, hpeers⟩ := backed_cleared hc.backed w.block genesis
  cases hinit : w.initState with
  | false => exact .nothing rfl rfl hbacked hpeers
  | true =>
  cases hblock : w.block with
  | false =>
      -- nothing has been stored, and nothing is replayed
      rw [hblock] at hbacked hpeers
      exact .nothing rfl rfl ⟨hbacked.surplus, hbacked.nonneg⟩ hpeers
  | true =>
      rw [hblock] at hbacked hpeers
      exact Kept.replayed hg rfl ⟨hbacked.surplus, hbacked.nonneg⟩ hpeers

theorem Kept.add {w : Writes} {answer : Option Bool} {b : BlockStruct} {c c' : Blockchain}
    {ok : Bool} {acc : List Accepted} (hc : Kept c acc)
    (h : c.addWith crypto w b answer = some (c', ok)) :
    Kept c' (acc ++ [⟨b, w.block, false, c, c'⟩]) := by
  have hspec := addWith_spec crypto h
  obtain ⟨hnext, hprev, -, hquorum⟩ := (accepts_iff crypto).mp hspec.accepts
  have hlen : b.height = acc.length + 1 := by
    rw [← hnext, hc.height]
  -- Only a chain that has a block goes on.
  have hne : acc ≠ [] := by
    rintro rfl
    rw [hc.latest] at hprev
    exact nomatch hprev
  refine ⟨?_, ?_, ?_, fun _ => ?_, ?_, ?_, ?_, ?_⟩
  · rw [hspec.height, hlen, List.length_append]
    rfl
  · rw [hspec.latest, List.getLast?_concat]
    rfl
  · intro k a ha
    rcases (getElem?_concat_eq_some_iff acc _ a k).mp ha with hold | ⟨rfl, rfl⟩
    · exact hc.heights k a hold
    · exact hlen
  -- A write that fails leaves the store as it was: the same record with a false flag.
  · have hwrite := (hc.recorded hne).write b w.block
    rw [List.length_map, ← hlen] at hwrite
    rw [hspec.dbBlockchain, List.map_append]
    unfold putBlockIf
    have hflag : Accepted.write ⟨b, w.block, false, c, c'⟩ = (b, w.block) := by
      show (b, w.block && true) = _
      rw [Bool.and_true]
    rw [List.map_singleton, hflag]
    cases hblock : w.block with
    | false =>
        rw [hblock] at hwrite
        exact hwrite
    | true =>
        rw [hblock] at hwrite
        exact hwrite
  · intro a ha hstored
    rcases List.mem_append.mp ha with ha | ha
    · exact hc.advanced a ha hstored
    · obtain rfl := List.mem_singleton.mp ha
      exact hspec.height.trans hnext.symm
  · rw [hspec.ledger]
    exact hc.backed.applyWrites w.state
  · intro publicKey hpeer
    rw [hspec.ledger, Ledger.hasPeer_applyWrites] at hpeer
    rw [List.map_append, List.map_singleton, Ledger.applyBlocks_append]
    show ((Ledger.fresh.applyBlocks (acc.map Accepted.block)).applyTx b.tx).hasPeer publicKey = true
    rw [Ledger.hasPeer_applyTx, Ledger.lastMove]
    cases hmove : ((commandsOf b.tx).filterMap (Ledger.moveOf publicKey)).getLast? with
    | none =>
        rw [hmove, Option.getD_none] at hpeer
        exact hc.peers publicKey hpeer
    | some joined =>
        rw [hmove, Option.getD_some] at hpeer
        exact hpeer
  · intro g b' rest hacc
    cases acc with
    | nil => exact absurd rfl hne
    | cons a acc =>
        obtain ⟨rfl, htail⟩ := List.cons.inj hacc
        cases acc with
        | nil =>
            -- the second block has been voted for by a peer of the first
            obtain ⟨rfl, -⟩ := List.cons.inj htail
            obtain ⟨v, hv, hpeer⟩ := hc.backed.exists_peer hquorum
            exact ⟨v, hv, hc.peers v.origin hpeer⟩
        | cons a' acc =>
            obtain ⟨rfl, -⟩ := List.cons.inj htail
            exact hc.known _ _ _ rfl

theorem Writing.kept {publicKey : Text} {c : Blockchain} {acc : List Accepted}
    (h : Writing crypto publicKey c acc) : Kept c acc := by
  induction h with
  | boot => exact kept_fresh _ _
  | reset _ hg ih => exact ih.reset hg
  | add _ h ih => exact ih.add h

/-! ## §7. What is accepted is persisted. -/

/-- Every accepted block stands in the store under its height. -/
def Persisted (c : Blockchain) (acc : List Accepted) : Prop :=
  ∀ k a, acc[k]? = some a → c.dbBlockchain.get? (k + 1) = some a.block

/-- A start over the store completes, as long as it can clear `dbState`, and has the
height and the hashes of what has been accepted. -/
def Rebuilds (c : Blockchain) (acc : List Accepted) : Prop :=
  acc ≠ [] → ∀ (w : Writes) (maxBlocks : Nat), w.initState = true →
    ∃ c', c.restartWith w maxBlocks = (c', true) ∧ c'.height = c.height
      ∧ c'.latestBlock.map BlockStruct.hash = c.latestBlock.map BlockStruct.hash
      ∧ c'.chain.map BlockStruct.hash = acc.map fun a => a.block.hash

/-- An add whose block could not be stored has not advanced the chain. -/
def NoneUnstored (acc : List Accepted) : Prop :=
  ∀ a ∈ acc, a.stored = false →
    a.after.height = a.before.height ∧ a.after.latestBlock = a.before.latestBlock
      ∧ a.after.mapPeer = a.before.mapPeer

/-- Every put of an accepted block has succeeded, no reset has broken off behind its
first clear since, and no block after the first one starts a stake vote. -/
structure WritesHeld (acc : List Accepted) : Prop where
  stored : ∀ a ∈ acc, a.stored = true
  not_lost : ∀ a ∈ acc, a.lost = false
  few : ∀ a ∈ acc.tail, FewSameChars a.block

/-- A put that rejects never keeps the chain from advancing. -/
theorem Kept.noneUnstored_iff {c : Blockchain} {acc : List Accepted} (h : Kept c acc) :
    NoneUnstored acc ↔ ∀ a ∈ acc, a.stored = true := by
  constructor
  · intro hnone a ha
    by_contra hstored
    rw [Bool.not_eq_true] at hstored
    have hadvanced := h.advanced a ha hstored
    have hsame := (hnone a ha hstored).1
    omega
  · intro hall a ha hstored
    rw [hall a ha] at hstored
    exact nomatch hstored

/-- **The store has them all** exactly if none of their writes is gone. -/
theorem Kept.persisted_iff {c : Blockchain} {acc : List Accepted} (h : Kept c acc) :
    Persisted c acc ↔ ∀ a ∈ acc, a.write = (a.block, true) := by
  by_cases hne : acc = []
  · rw [hne]
    exact iff_of_true (fun _ _ hk => nomatch hk) fun _ ha => nomatch ha
  have hrecorded := h.recorded hne
  constructor
  · intro hpersisted a ha
    obtain ⟨k, hk⟩ := List.mem_iff_getElem?.mp ha
    -- Only the block accepted at this place can stand under its height.
    have hlog := (hrecorded.lookup k a.block).mp (hpersisted k a hk)
    rw [List.getElem?_map, hk] at hlog
    exact Option.some.inj hlog
  · intro hall k a ha
    refine (hrecorded.lookup k a.block).mpr ?_
    rw [List.getElem?_map, ha, Option.map_some, hall a (List.mem_of_getElem? ha)]

/-- The chain in the store is the accepted one. -/
theorem Kept.chain {c : Blockchain} {acc : List Accepted} (h : Kept c acc) (hne : acc ≠ [])
    (hall : ∀ a ∈ acc, a.write = (a.block, true)) : c.chain = acc.map Accepted.block := by
  have hsame : acc.map Accepted.write = acc.map fun a => (a.block, true) :=
    List.map_congr_left hall
  have hvalues := (h.recorded hne).values
  have hfilter : acc.filter (Prod.snd ∘ fun a : Accepted => (a.block, true)) = acc :=
    List.filter_eq_self.mpr fun _ _ => rfl
  rw [hsame, List.filter_map, List.map_map, hfilter] at hvalues
  exact hvalues

/-- A start that can clear `dbState` replays what is in the store. -/
theorem restartWith_eq (c : Blockchain) {w : Writes} (hw : w.initState = true) (maxBlocks : Nat) :
    c.restartWith w maxBlocks = replayWith w.state (fun _ => none) 0
      (withStore c.publicKey maxBlocks c.dbBlockchain).rewind c.chain := by
  unfold restartWith initWith
  exact if_pos hw

/-- **The next start completes** exactly if no hash after the first starts a stake vote. -/
theorem Kept.restart_iff {c : Blockchain} {acc : List Accepted} (h : Kept c acc) (hne : acc ≠ [])
    (hall : ∀ a ∈ acc, a.write = (a.block, true)) {w : Writes} (hw : w.initState = true)
    (maxBlocks : Nat) :
    (c.restartWith w maxBlocks).2 = true ↔ ∀ a ∈ acc.tail, FewSameChars a.block := by
  have hchain := h.chain hne hall
  rw [restartWith_eq c hw, hchain]
  obtain ⟨a, rest, rfl⟩ := List.exists_cons_of_ne_nil hne
  rw [List.map_cons, restart_replay_iff rfl rfl]
  · rw [List.tail_cons, List.forall_mem_map]
  · intro b hb
    cases rest with
    | nil => exact nomatch hb
    | cons a' rest =>
        obtain rfl := Option.some.inj hb
        exact h.known _ _ _ rfl

/-- **Accepted means persisted** if and only if every write it rests on has held, and
no hash stands in the way of the next start. -/
theorem accepted_persisted_iff {publicKey : Text} {c : Blockchain} {acc : List Accepted}
    (h : Writing crypto publicKey c acc) :
    Persisted c acc ∧ Rebuilds c acc ∧ NoneUnstored acc ↔ WritesHeld acc := by
  have hkept := h.kept
  rw [hkept.persisted_iff, hkept.noneUnstored_iff]
  constructor
  · rintro ⟨hall, hrebuilds, hstored⟩
    refine ⟨hstored, ?_, ?_⟩
    · intro a ha
      have hflag : (a.stored && !a.lost) = true := congrArg Prod.snd (hall a ha)
      rw [hstored a ha, Bool.true_and, Bool.not_eq_true'] at hflag
      exact hflag
    · by_cases hne : acc = []
      · rw [hne]
        exact fun _ ha => nomatch ha
      · obtain ⟨c', hc', -⟩ := hrebuilds hne .succeed 0 rfl
        exact (hkept.restart_iff hne hall rfl 0).mp (congrArg Prod.snd hc')
  · intro hheld
    have hall : ∀ a ∈ acc, a.write = (a.block, true) := by
      intro a ha
      unfold Accepted.write
      rw [hheld.stored a ha, hheld.not_lost a ha]
      rfl
    refine ⟨hall, ?_, hheld.stored⟩
    intro hne w maxBlocks hw
    have hchain := hkept.chain hne hall
    have hcompletes := (hkept.restart_iff hne hall hw maxBlocks).mpr hheld.few
    have hpair : c.restartWith w maxBlocks = ((c.restartWith w maxBlocks).1, true) :=
      Prod.ext rfl hcompletes
    refine ⟨_, hpair, ?_⟩
    have hspec := replayWith_spec ((restartWith_eq c hw maxBlocks).symm.trans hpair)
    have hheight := hspec.height
    have hlatest := hspec.latest
    change _ = (c.chain.getLast?.map BlockStruct.height).getD 0 at hheight
    change _ = (c.chain.getLast?.map BlockStruct.hash).or none at hlatest
    rw [hchain, List.getLast?_map] at hheight hlatest
    refine ⟨?_, ?_, ?_⟩
    · rw [hheight, hkept.height]
      have hlast := List.getLast?_eq_some_getLast hne
      have hat := hkept.heights (acc.length - 1) _ (List.getLast?_eq_getElem? ▸ hlast)
      have hpos : 0 < acc.length := List.length_pos_iff.mpr hne
      rw [hlast]
      show (acc.getLast hne).block.height = acc.length
      omega
    · rw [hlatest, hkept.latest, Option.or_none, Option.map_map]
      rfl
    · have hdb : (c.restartWith w maxBlocks).1.chain = c.chain :=
        congrArg Store.values hspec.dbBlockchain
      rw [hdb, hchain, List.map_map]
      rfl

/-! ## §8. A put that rejects. -/

/-- The second block, added under these writes. -/
def sampleAdded (w : Writes) : Blockchain × Bool :=
  ((sampleStart 0).addWith sampleCrypto w (sampleBlock [0, 1]) (some true)).getD (fresh [] 0, false)

theorem writing_sampleAdded {w : Writes} (h : (sampleAdded w).2 = true) :
    Writing sampleCrypto (keyOf 0) (sampleAdded w).1
      [⟨sampleGenesis, true, false, fresh (keyOf 0) 100, sampleStart 0⟩,
        ⟨sampleBlock [0, 1], w.block, false, sampleStart 0, (sampleAdded w).1⟩] := by
  have hreset : (fresh (keyOf 0) 100).resetWith .succeed (fun _ => some true) sampleGenesis
      = (sampleStart 0, true) := by decide +kernel
  have hadd : (sampleStart 0).addWith sampleCrypto w (sampleBlock [0, 1]) (some true)
      = some ((sampleAdded w).1, true) := by
    unfold sampleAdded at h ⊢
    cases hcall : (sampleStart 0).addWith sampleCrypto w (sampleBlock [0, 1]) (some true) with
    | none =>
        rw [hcall] at h
        exact nomatch h
    | some r =>
        rw [hcall] at h
        exact congrArg some (Prod.ext rfl h)
  have hstart : Writing sampleCrypto (keyOf 0) (sampleStart 0)
      [⟨sampleGenesis, true, false, fresh (keyOf 0) 100, sampleStart 0⟩] := by
    have hboot : Writing sampleCrypto (keyOf 0) (fresh (keyOf 0) 100) [] := Writing.boot
    have hfirst : Writing sampleCrypto (keyOf 0)
        ((fresh (keyOf 0) 100).resetWith .succeed (fun _ => some true) sampleGenesis).1
        (acceptedByReset .succeed sampleGenesis (fresh (keyOf 0) 100)
          ((fresh (keyOf 0) 100).resetWith .succeed (fun _ => some true) sampleGenesis).1 []) :=
      hboot.reset (by decide)
    rw [hreset] at hfirst
    exact hfirst
  exact hstart.add hadd

/-- Both blocks are stored, and not one state of a peer: the next start has them. -/
theorem accepted_persisted_of_sample :
    Persisted (sampleAdded ⟨true, true, true, true, fun _ => false⟩).1
        [⟨sampleGenesis, true, false, fresh (keyOf 0) 100, sampleStart 0⟩,
          ⟨sampleBlock [0, 1], true, false, sampleStart 0,
            (sampleAdded ⟨true, true, true, true, fun _ => false⟩).1⟩]
      ∧ Rebuilds (sampleAdded ⟨true, true, true, true, fun _ => false⟩).1
        [⟨sampleGenesis, true, false, fresh (keyOf 0) 100, sampleStart 0⟩,
          ⟨sampleBlock [0, 1], true, false, sampleStart 0,
            (sampleAdded ⟨true, true, true, true, fun _ => false⟩).1⟩] := by
  have hholds := (accepted_persisted_iff (writing_sampleAdded (w := ⟨true, true, true, true,
    fun _ => false⟩) (by decide +kernel))).mpr
    ⟨by simp, by simp, by
      intro a ha
      obtain rfl := List.mem_singleton.mp ha
      exact (by decide +kernel : FewSameChars (sampleBlock [0, 1]))⟩
  exact ⟨hholds.1, hholds.2.1⟩

/-- **A put that rejects**: the chain has advanced, and the store has one block. -/
theorem accepted_not_persisted :
    ¬ ∀ c acc, Writing sampleCrypto (keyOf 0) c acc →
      Persisted c acc ∧ Rebuilds c acc ∧ NoneUnstored acc := by
  intro hclaim
  have hwriting := writing_sampleAdded (w := ⟨true, true, true, false, fun _ => true⟩)
    (by decide +kernel)
  have hstored := (hclaim _ _ hwriting).1 1 _ rfl
  exact absurd hstored (by decide +kernel)

end Blockchain

end Divachain
