/-
  Divachain.Chain.Tally — the tally of votes, live and rebuilt.

  Only the votes of peers are counted.  `add` counts the votes of a block when
  its commands have been applied, `init` counts them before.  A voter who joins
  or leaves with the block is therefore counted by one of them only.

  Main results:
    * `countVote_agree_iff` — when both count the votes of a block alike;
    * `tally_rebuilt` — over blocks with such votes, a restart rebuilds the
      tally.
-/
import Divachain.Chain.Removal

namespace Divachain

open DataKit

namespace Ledger

/-! ## §1. Peers before and after a block. -/

/-- Whether the block has let the peer in or taken it out last, if it names it. -/
def lastMove (tx : List TransactionStruct) (publicKey : Text) : Option Bool :=
  ((commandsOf tx).filterMap (moveOf publicKey)).getLast?

theorem hasPeer_foldl (publicKey : Text) :
    ∀ (cs : List (Text × Command)) (l : Ledger),
      (cs.foldl apply l).hasPeer publicKey
        = ((cs.filterMap (moveOf publicKey)).getLast?).getD (l.hasPeer publicKey)
  | [], _ => rfl
  | oc :: cs, l => by
      rw [List.foldl_cons, hasPeer_foldl publicKey cs, hasPeer_apply]
      cases hmove : moveOf publicKey oc with
      | none => rw [List.filterMap_cons_none hmove, Option.getD_none]
      | some joined =>
          rw [List.filterMap_cons_some hmove, List.getLast?_cons, Option.getD_some,
            Option.getD_some]

/-- **Who is a peer after a block.** -/
theorem hasPeer_applyTx (l : Ledger) (tx : List TransactionStruct) (publicKey : Text) :
    (l.applyTx tx).hasPeer publicKey = (lastMove tx publicKey).getD (l.hasPeer publicKey) :=
  hasPeer_foldl publicKey _ l

/-- No voter of the block joins or leaves with it: one whom it lets in last was
a peer before, one whom it takes out last was none. -/
def Steady (l : Ledger) (b : BlockStruct) : Prop :=
  ∀ v ∈ b.votes, ∀ joined, lastMove b.tx v.origin = some joined → l.hasPeer v.origin = joined

theorem steady_iff {l : Ledger} {b : BlockStruct} :
    Steady l b ↔ ∀ v ∈ b.votes, (l.applyTx b.tx).hasPeer v.origin = l.hasPeer v.origin := by
  unfold Steady
  refine forall₂_congr fun v _ => ?_
  rw [hasPeer_applyTx]
  cases lastMove b.tx v.origin with
  | none => exact iff_of_true (fun _ h => nomatch h) rfl
  | some joined =>
      rw [Option.getD_some]
      constructor
      · intro h
        exact (h joined rfl).symm
      · rintro h joined' heq
        rw [← Option.some.inj heq, h]

end Ledger

namespace Blockchain

/-! ## §2. Counting the votes of a block. -/

/-- How often the votes name the peer. -/
def votesOf (votes : List VoteStruct) (publicKey : Text) : Nat :=
  votes.countP fun v => decide (v.origin = publicKey)

/-- **What counting adds to an entry.** -/
theorem getD_countVote (l : Ledger) (publicKey : Text) :
    ∀ (votes : List VoteStruct) (mapVoteStake : OrdMap Text Nat),
      ((votes.foldl (countVote l) mapVoteStake).get? publicKey).getD 0
        = (mapVoteStake.get? publicKey).getD 0
          + if l.hasPeer publicKey then votesOf votes publicKey else 0
  | [], mapVoteStake => by simp [votesOf]
  | v :: votes, mapVoteStake => by
      rw [List.foldl_cons, getD_countVote l publicKey votes]
      have hcount : votesOf (v :: votes) publicKey
          = votesOf votes publicKey + if v.origin = publicKey then 1 else 0 := by
        simp [votesOf, List.countP_cons]
      have hvote : ((countVote l mapVoteStake v).get? publicKey).getD 0
          = (mapVoteStake.get? publicKey).getD 0
            + if l.hasPeer publicKey ∧ v.origin = publicKey then 1 else 0 := by
        unfold countVote
        -- Only the entry of the voter moves, and only if the voter is a peer.
        by_cases horigin : v.origin = publicKey
        · subst horigin
          by_cases hpeer : l.hasPeer v.origin = true
          · rw [if_pos hpeer, if_pos ⟨hpeer, rfl⟩, OrdMap.get?_set, if_pos rfl, Option.getD_some]
          · simp only [hpeer, false_and, ↓reduceIte, Nat.add_zero, Bool.false_eq_true]
        · simp only [horigin, and_false, ↓reduceIte, Nat.add_zero]
          split
          · rw [OrdMap.get?_set, if_neg fun h => horigin h.symm]
          · rfl
      rw [hvote, hcount]
      cases l.hasPeer publicKey with
      | false => simp
      | true =>
          simp only [true_and, ↓reduceIte]
          omega

/-- Only who is a peer counts. -/
theorem foldl_countVote_congr {l l' : Ledger} :
    ∀ {votes : List VoteStruct} (mapVoteStake : OrdMap Text Nat),
      (∀ v ∈ votes, l'.hasPeer v.origin = l.hasPeer v.origin) →
        votes.foldl (countVote l') mapVoteStake = votes.foldl (countVote l) mapVoteStake
  | [], _, _ => rfl
  | v :: votes, mapVoteStake, h => by
      have hvote : countVote l' mapVoteStake v = countVote l mapVoteStake v := by
        rw [countVote, countVote, h v List.mem_cons_self]
      rw [List.foldl_cons, List.foldl_cons, hvote]
      exact foldl_countVote_congr _ fun w hw => h w (List.mem_cons_of_mem v hw)

/-- **When the votes of a block count alike before and after it.** -/
theorem countVote_agree_iff {l : Ledger} {b : BlockStruct} (mapVoteStake : OrdMap Text Nat) :
    b.votes.foldl (countVote (l.applyTx b.tx)) mapVoteStake
        = b.votes.foldl (countVote l) mapVoteStake ↔ l.Steady b := by
  rw [Ledger.steady_iff]
  constructor
  · intro h v hv
    have hcount : 0 < votesOf b.votes v.origin :=
      List.countP_pos_iff.mpr ⟨v, hv, decide_eq_true rfl⟩
    -- the entry of the voter shows who has counted the vote
    have hentry := congrArg (fun m => (OrdMap.get? m v.origin).getD 0) h
    simp only [getD_countVote] at hentry
    cases hafter : (l.applyTx b.tx).hasPeer v.origin <;> cases hbefore : l.hasPeer v.origin <;>
      simp only [hafter, hbefore, ↓reduceIte, Bool.false_eq_true] at hentry ⊢ <;> omega
  · exact foldl_countVote_congr mapVoteStake

/-! ## §3. Chains that agree in what a stake vote reads. -/

structure SameTally (c d : Blockchain) : Prop where
  publicKey : d.publicKey = c.publicKey
  mapVoteStake : d.mapVoteStake = c.mapVoteStake

/-- A stake vote goes the same way over equal tallies. -/
theorem SameTally.settle {c c' d : Blockchain} {b : BlockStruct} {answer : Bool}
    (hvotes : SameTally c d) (h : c.settle answer (c.stakeVote b) = some c') :
    ∃ d', d.settle answer (d.stakeVote b) = some d' ∧ SameTally c' d' := by
  have hvote : d.stakeVote b = c.stakeVote b := by
    unfold stakeVote
    rw [hvotes.mapVoteStake, hvotes.publicKey]
  rw [hvote]
  cases hc : c.stakeVote b with
  | skip =>
      rw [hc] at h
      obtain rfl := Option.some.inj h
      exact ⟨d, rfl, hvotes⟩
  | throws =>
      rw [hc] at h
      exact nomatch h
  | propose publicKey =>
      rw [hc] at h
      obtain rfl := Option.some.inj h
      refine ⟨_, rfl, ?_⟩
      cases answer with
      | false => exact hvotes
      | true =>
          refine ⟨hvotes.publicKey, ?_⟩
          show d.mapVoteStake.delete publicKey = c.mapVoteStake.delete publicKey
          rw [hvotes.mapVoteStake]

/-- Where the votes count alike, the cache is updated alike. -/
theorem SameTally.updateCache {c c' d : Blockchain} {b : BlockStruct} {answer : Bool}
    (hkey : d.publicKey = c.publicKey)
    (hvotes : b.votes.foldl (countVote d.toLedger) d.mapVoteStake
      = b.votes.foldl (countVote c.toLedger) c.mapVoteStake)
    (h : c.updateCache answer b = some c') :
    ∃ d', d.updateCache answer b = some d' ∧ SameTally c' d' := by
  have hcounted : SameTally ((c.cacheBlock b).countVotes b) ((d.cacheBlock b).countVotes b) :=
    ⟨hkey, hvotes⟩
  exact hcounted.settle h

/-- **A replay goes the same way**, whatever the size of the cache. -/
theorem SameTally.replay {answers : Nat → Bool} :
    ∀ {bs : List BlockStruct} {c c' d : Blockchain}, SameTally c d → d.toLedger = c.toLedger →
      c.replay answers bs = some c' → ∃ d', d.replay answers bs = some d' ∧ SameTally c' d'
  | [], c, c', d, hvotes, _, h => by
      obtain rfl := Option.some.inj h
      exact ⟨d, rfl, hvotes⟩
  | b :: bs, c, c', d, hvotes, hledger, h => by
      unfold Blockchain.replay at h ⊢
      dsimp only at h ⊢
      rw [hledger]
      split at h
      next c'' hcache =>
        obtain ⟨d'', hcache', hvotes'⟩ := SameTally.updateCache hvotes.publicKey
          (by rw [hledger, hvotes.mapVoteStake]) hcache
        rw [hcache']
        have hset : SameTally (c''.setLedger (c.toLedger.processState b.tx).1)
            (d''.setLedger (c.toLedger.processState b.tx).1) :=
          ⟨hvotes'.publicKey, hvotes'.mapVoteStake⟩
        exact hset.replay rfl h
      next => exact nomatch h

theorem replay_append {answers : Nat → Bool} :
    ∀ (bs bs' : List BlockStruct) (c : Blockchain),
      c.replay answers (bs ++ bs') = (c.replay answers bs).bind fun d => d.replay answers bs'
  | [], _, _ => rfl
  | b :: bs, bs', c => by
      rw [List.cons_append, replay, replay]
      split
      · exact replay_append bs bs' _
      · rfl

/-! ## §4. Runs. -/

/-- The states of a node whose server gives the answer `answers h` at height `h`,
live and in every replay.  The blocks it adds are `ok`. -/
inductive Answered (ok : Blockchain → BlockStruct → Prop) (crypto : Crypto) (answers : Nat → Bool)
    (publicKey : Text) (genesis : BlockStruct) : Blockchain → Prop where
  | start {maxBlocks : Nat} {c : Blockchain}
      (h : (fresh publicKey maxBlocks).reset answers genesis = some c) :
      Answered ok crypto answers publicKey genesis c
  | add {c c' : Blockchain} {b : BlockStruct} (hc : Answered ok crypto answers publicKey genesis c)
      (hok : ok c b) (h : c.add crypto b (answers b.height) = .added c') :
      Answered ok crypto answers publicKey genesis c'
  | restart {c c' : Blockchain} {maxBlocks : Nat}
      (hc : Answered ok crypto answers publicKey genesis c)
      (h : c.restart answers maxBlocks = some c') :
      Answered ok crypto answers publicKey genesis c'

section Run

variable {ok : Blockchain → BlockStruct → Prop} {crypto : Crypto} {answers : Nat → Bool}
  {publicKey : Text} {genesis : BlockStruct} {c : Blockchain}

theorem Answered.runs (h : Answered ok crypto answers publicKey genesis c) :
    Runs crypto publicKey genesis c := by
  induction h with
  | start h => exact .start h
  | add _ _ h ih => exact ih.add h
  | restart _ h ih => exact ih.restart h

/-- **The tally is that of a replay** of the stored blocks. -/
def Replayable (answers : Nat → Bool) (c : Blockchain) : Prop :=
  ∃ d, (fresh c.publicKey 0).replay answers c.chain = some d ∧ SameTally c d

theorem Replayable.of_replay {maxBlocks : Nat} {db : Store Nat BlockStruct} {pk : Text}
    (hdb : c.dbBlockchain = db) (hkey : c.publicKey = pk)
    (h : ({ fresh pk maxBlocks with dbBlockchain := db } : Blockchain).init answers = some c) :
    Replayable answers c := by
  subst hdb hkey
  have hfresh : SameTally
      ({ fresh c.publicKey maxBlocks with dbBlockchain := c.dbBlockchain } : Blockchain).rewind
      (fresh c.publicKey 0) := ⟨rfl, rfl⟩
  exact hfresh.replay rfl h

/-- A block whose voters stay keeps it so. -/
theorem Replayable.add {c' : Blockchain} {b : BlockStruct} (hc : Replayable answers c)
    (hstored : Stored genesis c) (hsteady : c.toLedger.Steady b)
    (h : c.add crypto b (answers b.height) = .added c') : Replayable answers c' := by
  obtain ⟨d, hreplay, hvotes⟩ := hc
  have hspec := add_spec crypto h
  have hheight := ((accepts_iff crypto).mp hspec.accepts).1
  have hchain : c'.chain = c.chain ++ [b] := by
    rw [chain, hspec.dbBlockchain]
    exact values_put_above hstored.keys_le hheight
  have hledger : d.toLedger = c.toLedger := by
    rw [(replay_spec hreplay).ledger, hstored.ledger]
    rfl
  unfold Replayable
  rw [hspec.publicKey, hchain, replay_append, hreplay, Option.bind_some]
  unfold Blockchain.add at h
  rw [if_pos hspec.accepts] at h
  dsimp only at h
  split at h
  next c'' hcache =>
    obtain rfl : c'' = c' := AddResult.added.inj h
    -- live, the votes are counted over the ledger after the block
    have hcount : b.votes.foldl (countVote d.toLedger) d.mapVoteStake
        = b.votes.foldl (countVote (c.toLedger.processState b.tx).1) c.mapVoteStake := by
      rw [hledger, hvotes.mapVoteStake, Ledger.processState_fst]
      exact ((countVote_agree_iff c.mapVoteStake).mpr hsteady).symm
    obtain ⟨d', hcache', hvotes'⟩ := SameTally.updateCache
      (c := (c.putBlock b.height b).setLedger (c.toLedger.processState b.tx).1)
      (b := { b with tx := (c.toLedger.processState b.tx).2 }) hvotes.publicKey hcount hcache
    unfold replay
    rw [hledger]
    dsimp only
    rw [hcache']
    exact ⟨_, rfl, hvotes'.publicKey, hvotes'.mapVoteStake⟩
  next => cases h

theorem Answered.replayable (hg : 1 ≤ genesis.height)
    (h : Answered (fun c b => c.toLedger.Steady b) crypto answers publicKey genesis c) :
    Replayable answers c := by
  induction h with
  | start h =>
      have hspec := replay_spec h
      exact Replayable.of_replay hspec.dbBlockchain hspec.publicKey h
  | add hc hok h ih => exact ih.add (hc.runs.stored hg) hok h
  | restart _ h _ =>
      have hspec := replay_spec h
      exact Replayable.of_replay hspec.dbBlockchain hspec.publicKey h

/-- **The tally survives a restart** over blocks whose voters neither join nor
leave with them. -/
theorem tally_rebuilt (hg : 1 ≤ genesis.height)
    (h : Answered (fun c b => c.toLedger.Steady b) crypto answers publicKey genesis c)
    (maxBlocks : Nat) :
    ∃ d, c.restart answers maxBlocks = some d ∧ d.mapVoteStake = c.mapVoteStake := by
  obtain ⟨d, hreplay, hvotes⟩ := h.replayable hg
  have hfresh : SameTally (fresh c.publicKey 0)
      ({ fresh c.publicKey maxBlocks with dbBlockchain := c.dbBlockchain } : Blockchain).rewind :=
    ⟨rfl, rfl⟩
  obtain ⟨d', hrestart, hvotes'⟩ := hfresh.replay rfl hreplay
  exact ⟨d', hrestart, hvotes'.mapVoteStake.trans hvotes.mapVoteStake⟩

end Run

theorem start_sampleStart_one : (fresh (keyOf 1) 100).reset (fun _ => true) sampleGenesis
    = some (sampleStart 1) := by decide +kernel

/-- Peer 0 leaves with the second block, and the others have voted for it. -/
theorem tally_rebuilt_of_sample :
    ∃ d, (sampleLive 1 [1, 2]).restart (fun _ => true) 100 = some d
      ∧ d.mapVoteStake = (sampleLive 1 [1, 2]).mapVoteStake := by
  have hadd : (sampleStart 1).add sampleCrypto (sampleBlock [1, 2]) true
      = .added (sampleLive 1 [1, 2]) := by decide +kernel
  have hsteady : (sampleStart 1).toLedger.Steady (sampleBlock [1, 2]) :=
    Ledger.steady_iff.mpr (by decide +kernel)
  have hruns : Answered (fun c b => c.toLedger.Steady b) sampleCrypto (fun _ => true) (keyOf 1)
      sampleGenesis (sampleLive 1 [1, 2]) := (Answered.start start_sampleStart_one).add hsteady hadd
  exact tally_rebuilt (by decide +kernel) hruns 100

/-- **A voter who leaves with the block** is counted by the restart only. -/
theorem tally_not_rebuilt_of_sample :
    Answered (fun _ _ => True) sampleCrypto (fun _ => true) (keyOf 1) sampleGenesis
        (sampleLive 1 [0, 1])
      ∧ (sampleLive 1 [0, 1]).mapVoteStake.entries = [(keyOf 1, 1)]
      ∧ ((sampleLive 1 [0, 1]).restart (fun _ => true) 100).map (fun d => d.mapVoteStake.entries)
          = some [(keyOf 0, 1), (keyOf 1, 1)] := by
  have hadd : (sampleStart 1).add sampleCrypto (sampleBlock [0, 1]) true
      = .added (sampleLive 1 [0, 1]) := by decide +kernel
  exact ⟨(Answered.start start_sampleStart_one).add trivial hadd, by decide +kernel,
    by decide +kernel⟩

end Blockchain

end Divachain
