/-
  Divachain.Net.Proposal — is the block of the proposal timer acceptable?

  The pool is keyed by the origin of the message, validation of a block by the
  origin of the transaction, and only the schema limits the number of
  transactions.  `pooled` lists what a validator takes into its pool out of a
  sequence of messages: of every message origin the first one that fits.  The
  block made of it passes at the other peers exactly if no two transactions in
  it have one origin and there are at most sixteen.
-/
import Divachain.Net.Signing
import Divachain.Chain.Agreement

namespace Divachain

open DataKit

/-- Hashes and signatures have the lengths and characters the schemas ask for. -/
structure Crypto.Formatted (crypto : Crypto) : Prop where
  hash : ∀ d, isKeyText (crypto.hash d) = true
  sign : ∀ pk d, isSigText (crypto.sign pk d) = true

/-- What the schema asks of a transaction before it is signed. -/
def draftValid (publicKey ident : Text) (commands : List Command) : Bool :=
  isIdentText ident && isKeyText publicKey
    && (commands.all Command.valid && arrayWithin Command.same 1 16 commands)

/-- **A transaction passes with its own signature** as far as its contents do. -/
theorem validateTx_make_iff {crypto : Crypto} (hformat : crypto.Formatted)
    (hcorrect : crypto.SignCorrect) {l : Ledger} {height : Nat} {publicKey ident : Text}
    {commands : List Command} :
    validateTx crypto l height (Transaction.make crypto publicKey height ident commands) = true
      ↔ draftValid publicKey ident commands = true ∧ 0 < height
        ∧ ∀ c ∈ commands, validateCommand l height publicKey c = true := by
  have hsig : isSigText (crypto.sign publicKey (signedText height commands)) = true :=
    hformat.sign _ _
  have hkeys : TransactionStruct.fields.isPerm TransactionStruct.fields = true := by decide
  have hvalid : (Transaction.make crypto publicKey height ident commands).valid
      = draftValid publicKey ident commands := by
    show (isIdentText ident && isKeyText publicKey
      && (commands.all Command.valid && arrayWithin Command.same 1 16 commands)
      && isSigText (crypto.sign publicKey (signedText height commands))
      && TransactionStruct.fields.isPerm TransactionStruct.fields) = _
    rw [hsig, hkeys, Bool.and_true, Bool.and_true]
    rfl
  rw [validateTx_iff, hvalid]
  constructor
  · rintro ⟨hdraft, hpos, -, hcommands⟩
    exact ⟨hdraft, hpos, hcommands⟩
  · rintro ⟨hdraft, hpos, hcommands⟩
    exact ⟨hdraft, hpos, hcorrect _ _, hcommands⟩

/-- What `processAddTx` reads of a message. -/
structure AddTx where
  origin : Text
  height : Nat
  tx : TransactionStruct
  deriving DecidableEq, Repr

/-- Of every origin the first message that is `ok`; `seen` are the origins so far. -/
def pooled (ok : AddTx → Bool) : List Text → List AddTx → List AddTx
  | _, [] => []
  | seen, m :: l =>
      if ok m ∧ m.origin ∉ seen then m :: pooled ok (seen ++ [m.origin]) l
      else pooled ok seen l

theorem ok_of_mem_pooled {ok : AddTx → Bool} :
    ∀ {seen : List Text} {l : List AddTx} {m : AddTx}, m ∈ pooled ok seen l → ok m = true
  | _, [], _, h => nomatch h
  | seen, m' :: l, m, h => by
      unfold pooled at h
      split at h
      next hok =>
        rcases List.mem_cons.mp h with rfl | h
        · exact hok.1
        · exact ok_of_mem_pooled h
      next => exact ok_of_mem_pooled h

namespace Node

variable (crypto : Crypto)

/-! ## §1. The pool. -/

/-- The validator handles the messages one after the other. -/
def collect (n : Node) (l : List AddTx) : Node :=
  l.foldl (fun n m => n.processAddTx crypto m.origin m.height m.tx) n

/-- The message is for the next height and its transaction passes. -/
def fits (n : Node) (m : AddTx) : Bool :=
  decide (m.height = n.chain.height + 1)
    && validateTx crypto n.chain.toLedger (n.chain.height + 1) m.tx

/-- No transaction is in the pool and no candidate is held. -/
structure Idle (n : Node) : Prop where
  running : n.halted = false
  block : n.block = none
  current : n.current = .empty
  arrayPoolTx : n.arrayPoolTx = []
  timer : n.timeoutProposeBlock = false

variable {crypto} {n : Node}

theorem hasBlock_of_none (h : n.block = none) : n.hasBlock = false := by
  rw [Consensus.hasBlock, Consensus.held, h]
  rfl

/-- Without a candidate a message is turned away for its origin only. -/
theorem poolable_iff (hblock : n.block = none) (m : AddTx) :
    n.poolable crypto m.origin m.height m.tx = true
      ↔ n.fits crypto m = true ∧ m.origin ∉ n.current.keys := by
  rw [poolable, fits, hasBlock_of_none hblock, ← OrdMap.has_iff]
  simp only [Bool.not_false, Bool.true_and, Bool.and_eq_true, Bool.not_eq_true',
    Bool.not_eq_true]
  tauto

/-- What handling the messages has led to. -/
structure Collected (crypto : Crypto) (n : Node) (l : List AddTx) (n' : Node) : Prop where
  core : n'.toConsensus = n.toConsensus
  halted : n'.halted = n.halted
  entries : n'.current.entries
    = n.current.entries ++ (pooled (n.fits crypto) n.current.keys l).map fun m => (m.origin, m.tx)
  pool : n.arrayPoolTx.Perm n.current.values → n'.arrayPoolTx.Perm n'.current.values
  timer : n'.timeoutProposeBlock = true → n.timeoutProposeBlock = true
    ∨ pooled (n.fits crypto) n.current.keys l ≠ []

/-- **The pool holds the first message of every origin.** -/
theorem collect_spec :
    ∀ {l : List AddTx} {n : Node}, n.block = none → Collected crypto n l (n.collect crypto l)
  | [], n, _ => ⟨rfl, rfl, (List.append_nil _).symm, id, Or.inl⟩
  | m :: l, n, hblock => by
      have hstep : n.collect crypto (m :: l)
          = (n.processAddTx crypto m.origin m.height m.tx).collect crypto l := rfl
      rw [hstep]
      unfold processAddTx
      -- Pooled or turned away; what was pooled stands at the end of `current`, so its
      -- entries come in the order of arrival.
      by_cases hpool : n.poolable crypto m.origin m.height m.tx = true
      · rw [if_pos hpool]
        have hok := (poolable_iff hblock m).mp hpool
        have hnew : n.current.has m.origin = false := by
          rw [← Bool.not_eq_true, OrdMap.has_iff]
          exact hok.2
        have hset := OrdMap.entries_set_of_not_has hnew m.tx
        have hkeys : (n.current.set m.origin m.tx).keys = n.current.keys ++ [m.origin] := by
          rw [OrdMap.keys, hset, List.map_append]
          rfl
        set n₁ : Node :=
          { n with
            current := n.current.set m.origin m.tx
            arrayPoolTx := sortPool (n.current.set m.origin m.tx).values
            timeoutProposeBlock := true }
        have hrest : Collected crypto n₁ l (n₁.collect crypto l) := collect_spec hblock
        refine ⟨hrest.core, hrest.halted, ?_, fun _ => hrest.pool (sortPool_perm _), fun _ => ?_⟩
        swap
        · rw [pooled, if_pos hok]
          exact Or.inr (List.cons_ne_nil _ _)
        have hfits : n₁.fits crypto = n.fits crypto := rfl
        have hentries := hrest.entries
        rw [hfits] at hentries
        change _ = (n.current.set m.origin m.tx).entries
          ++ (pooled (n.fits crypto) (n.current.set m.origin m.tx).keys l).map _ at hentries
        rw [hentries, hset, hkeys, pooled, if_pos hok, List.append_assoc]
        rfl
      · rw [if_neg hpool]
        have hno := mt (poolable_iff hblock m).mpr hpool
        have hrest : Collected crypto n l (n.collect crypto l) := collect_spec hblock
        refine ⟨hrest.core, hrest.halted, ?_, hrest.pool, ?_⟩
        · rw [hrest.entries, pooled, if_neg hno]
        · rw [pooled, if_neg hno]
          exact hrest.timer

/-- The pool after the messages, for a node that was idle before. -/
theorem arrayPoolTx_collect (hidle : Idle n) (l : List AddTx) :
    (n.collect crypto l).arrayPoolTx.Perm
      ((pooled (n.fits crypto) [] l).map AddTx.tx) := by
  have hspec : Collected crypto n l (n.collect crypto l) := collect_spec hidle.block
  have hstart : n.arrayPoolTx.Perm n.current.values := by
    rw [hidle.arrayPoolTx, hidle.current]
    exact List.Perm.refl []
  have hentries := hspec.entries
  have hkeys : n.current.keys = [] := by
    rw [hidle.current]
    rfl
  have hnone : n.current.entries = [] := by
    rw [hidle.current]
    rfl
  rw [hkeys, hnone, List.nil_append] at hentries
  -- The pool is `current` sorted: a permutation of the transactions taken.
  have hvalues : (n.collect crypto l).current.values
      = (pooled (n.fits crypto) [] l).map AddTx.tx := by
    rw [OrdMap.values, hentries, List.map_map]
    rfl
  rw [← hvalues]
  exact hspec.pool hstart

/-! ## §2. The block. -/

/-- The latest block is the one at the height of the chain, and the texts that
go into a proposal have the right shape. -/
structure Standing (c : Consensus) (latest : BlockStruct) : Prop where
  latest_eq : c.chain.latestBlock = some latest
  height_eq : latest.height = c.chain.height
  hash_ok : isKeyText latest.hash = true
  key_ok : isKeyText c.chain.publicKey = true

/-- **Every node that has started from a genesis block stands on its chain.** -/
theorem Reaches.standing {genesis : BlockStruct} {chain : Blockchain} {publicKey : Text}
    {maxBlocks : Nat} {answers : Nat → Bool} (hformat : crypto.Formatted)
    (hkey : isKeyText publicKey = true) (hhash : isKeyText genesis.hash = true)
    (hg : 1 ≤ genesis.height)
    (hstart : (Blockchain.fresh publicKey maxBlocks).reset answers genesis = some chain)
    (h : Reaches crypto (Sequential crypto) (start chain) n) :
    ∃ latest, Standing n.toConsensus latest := by
  have hsettled : Consensus.Settled crypto genesis [genesis] n.toConsensus :=
    h.settled .genesis (Blockchain.holds_start hg hstart)
  have hinv : n.chain.latestBlock.map BlockStruct.height = some n.chain.height
      ∧ n.chain.publicKey = publicKey := by
    clear hsettled
    induction h with
    | refl =>
        exact ⟨(Blockchain.cached_start hstart).1, (Blockchain.replay_spec hstart).publicKey⟩
    | @step m _ turn e hok ih =>
        obtain ⟨kind, -, hmove⟩ : ∃ kind, kind.from m turn e ∧ Move crypto _ kind _ :=
          m.step_moves turn e
        exact ⟨Consensus.top_of_move hmove ih.1, (Consensus.publicKey_of_move hmove).trans ih.2⟩
  obtain ⟨htop, hpublicKey⟩ := hinv
  cases hlatest : n.chain.latestBlock with
  | none =>
      rw [hlatest] at htop
      exact nomatch htop
  | some latest =>
      rw [hlatest] at htop
      refine ⟨latest, hlatest, Option.some.inj htop, ?_, hpublicKey ▸ hkey⟩
      have hlast := hsettled.latest
      rw [hlatest] at hlast
      -- the latest block has the hash of the last block of a validated sequence
      cases hblock : ([genesis] ++ n.committed).getLast? with
      | none =>
          rw [hblock] at hlast
          exact nomatch hlast
      | some last =>
          rw [hblock] at hlast
          have hsame : latest.hash = last.hash := Option.some.inj hlast
          rw [hsame]
          have hmem : last ∈ [genesis] ++ n.committed := List.mem_of_getLast? hblock
          have hplace := hsettled.validated.height_eq (List.getLast?_eq_getElem? ▸ hblock)
          by_cases habove : genesis.height < last.height
          · rw [← hsettled.validated.hash_eq hmem habove]
            exact hformat.hash _
          · have hlen : ([genesis] ++ n.committed).length - 1 = 0 := by omega
            rw [List.getLast?_eq_getElem?, hlen] at hblock
            obtain rfl : genesis = last := Option.some.inj hblock
            exact hhash

/-- The other peer has the same ledger and the same latest block. -/
structure SameChain (c c' : Consensus) : Prop where
  ledger : c'.chain.toLedger = c.chain.toLedger
  height : c'.chain.height = c.chain.height
  latest : c'.chain.latestBlock.map BlockStruct.hash = c.chain.latestBlock.map BlockStruct.hash

/-- Transactions with different origins are different. -/
theorem pairwise_not_same {l : List TransactionStruct}
    (h : (l.map TransactionStruct.origin).Nodup) :
    l.Pairwise fun a b => a.same b = false := by
  rw [List.Nodup, List.pairwise_map] at h
  refine h.imp ?_
  intro a b hne
  unfold TransactionStruct.same
  rw [decide_eq_false hne, Bool.and_false, Bool.false_and, Bool.false_and]

/-- **The schema sees the number of transactions**, where their origins differ. -/
theorem validateMessage_proposal_iff {c : Consensus} {latest : BlockStruct}
    (hformat : crypto.Formatted) (hc : Standing c latest) {now : Nat} (hnow : 1 ≤ now)
    {pool : List TransactionStruct} (hne : pool ≠ []) (hvalid : ∀ t ∈ pool, t.valid = true)
    (horigins : (pool.map TransactionStruct.origin).Nodup) :
    validateMessage (c.message now [] (.proposeBlock (c.proposal crypto pool))) = true
      ↔ pool.length ≤ 16 := by
  have hpos : 1 ≤ pool.length := List.length_pos_iff.mpr hne
  have hall : pool.all TransactionStruct.valid = true := List.all_eq_true.mpr hvalid
  have hvotes : validVotes (c.proposal crypto pool).votes = true := by
    show validVotes [c.ownVote crypto (c.proposal crypto pool).hash] = true
    have hvote : (c.ownVote crypto (c.proposal crypto pool).hash).valid = true := by
      rw [VoteStruct.valid, Bool.and_eq_true]
      exact ⟨hc.key_ok, hformat.sign _ _⟩
    simp [validVotes, arrayWithin, hvote]
  have hprev : (c.proposal crypto pool).previousHash = latest.hash := by
    rw [Consensus.proposal, hc.latest_eq]
    rfl
  have hhash : isKeyText (c.proposal crypto pool).hash = true := hformat.hash _
  -- Of all that the schema asks of a proposal only the number of transactions is open.
  have hvalidBlock : (c.proposal crypto pool).valid = true ↔ pool.length ≤ 16 := by
    unfold BlockStruct.valid arrayWithin
    rw [hprev, hc.hash_ok, hhash, hvotes]
    show (decide (BLOCK_VERSION = BLOCK_VERSION) && true && true
      && (pool.all TransactionStruct.valid && (decide (1 ≤ pool.length) && decide (pool.length ≤ 16)
        && decide (pool.Pairwise fun a b => a.same b = false)))
      && decide (1 ≤ (c.chain.latestBlock.getD default).height + 1) && true) = true ↔ _
    rw [hall, decide_eq_true hpos, decide_eq_true (pairwise_not_same horigins),
      decide_eq_true (Nat.le_add_left 1 _)]
    simp
  unfold validateMessage
  show (decide (1 ≤ now) && isKeyText c.chain.publicKey && true
    && (c.proposal crypto pool).valid) = true ↔ _
  rw [decide_eq_true hnow, hc.key_ok, Bool.true_and, Bool.true_and, Bool.true_and, hvalidBlock]

/-- **Validation sees the origins of the transactions.** -/
theorem acceptable_proposal_iff {c c' : Consensus} {latest : BlockStruct} (hc : Standing c latest)
    (hsame : SameChain c c') {pool : List TransactionStruct} (hne : pool ≠ [])
    (hvalid : ∀ t ∈ pool, validateTx crypto c.chain.toLedger (c.chain.height + 1) t = true) :
    c'.acceptable crypto (c.proposal crypto pool) = true
      ↔ (pool.map TransactionStruct.origin).Nodup := by
  have hheight : (c.proposal crypto pool).height = c.chain.height + 1 := by
    rw [Consensus.proposal, hc.latest_eq, ← hc.height_eq]
    rfl
  have hprev : (c.proposal crypto pool).previousHash = latest.hash := by
    rw [Consensus.proposal, hc.latest_eq]
    rfl
  have hlatest : c'.chain.latestBlock.map BlockStruct.hash = some latest.hash := by
    rw [hsame.latest, hc.latest_eq]
    rfl
  -- Height and hash fit by `SameChain`; what remains is the check of the block itself.
  unfold Consensus.acceptable
  rw [hheight, hsame.height, hlatest, hprev, hsame.ledger]
  simp only [decide_true, Bool.true_and, validateBlock_false_iff]
  constructor
  · intro h
    exact h.origins
  · intro horigins
    refine ⟨hne, rfl, horigins, ?_⟩
    rw [hheight]
    exact hvalid

/-! ## §3. The proposal timer. -/

/-- **The block of the proposal timer passes**, the schema as well as the check
of every peer with the same chain, exactly if the transactions pooled for
different messages have different origins and are at most sixteen. -/
theorem proposal_passes_iff {latest : BlockStruct} (hformat : crypto.Formatted) (hidle : Idle n)
    (hstanding : Standing n.toConsensus latest) (l : List AddTx) (turn : Turn)
    (hnow : 1 ≤ turn.now) (harmed : (n.collect crypto l).timeoutProposeBlock = true) :
    ∃ b, ((n.collect crypto l).step crypto turn .timeoutProposeBlock).sent
        = n.sent ++ [n.message turn.now [] (.proposeBlock b)]
      ∧ ∀ c' : Consensus, SameChain n.toConsensus c' →
        (validateMessage (n.message turn.now [] (.proposeBlock b)) = true
            ∧ c'.acceptable crypto b = true
          ↔ ((pooled (n.fits crypto) [] l).map fun m => m.tx.origin).Nodup
            ∧ (pooled (n.fits crypto) [] l).length ≤ 16) := by
  have hspec : Collected crypto n l (n.collect crypto l) := collect_spec hidle.block
  have hpool : (n.collect crypto l).arrayPoolTx.Perm ((pooled (n.fits crypto) [] l).map AddTx.tx) :=
    arrayPoolTx_collect hidle l
  set pool := (n.collect crypto l).arrayPoolTx with hpoolDef
  have hkeys : n.current.keys = [] := by
    rw [hidle.current]
    rfl
  refine ⟨n.proposal crypto pool, ?_, ?_⟩
  · have hhalted : (n.collect crypto l).halted = false := hspec.halted.trans hidle.running
    rw [step_of_running crypto hhalted, react, if_pos harmed]
    show ((n.collect crypto l).toConsensus.propose crypto turn.now pool).sent = _
    rw [hspec.core]
    rfl
  · intro c' hsame
    -- everything in the pool passes, and there is something in it
    have hvalid : ∀ t ∈ pool, validateTx crypto n.chain.toLedger (n.chain.height + 1) t = true := by
      intro t ht
      obtain ⟨m, hm, rfl⟩ := List.mem_map.mp (hpool.mem_iff.mp ht)
      have hok := ok_of_mem_pooled hm
      rw [fits, Bool.and_eq_true] at hok
      exact hok.2
    have hne : pool ≠ [] := by
      rcases hspec.timer harmed with htimer | hsome
      · rw [hidle.timer] at htimer
        cases htimer
      · intro hnil
        rw [hkeys] at hsome
        rw [hnil] at hpool
        exact hsome (List.map_eq_nil_iff.mp hpool.nil_eq.symm)
    have horigins : (pool.map TransactionStruct.origin).Nodup
        ↔ ((pooled (n.fits crypto) [] l).map fun m => m.tx.origin).Nodup := by
      rw [(hpool.map TransactionStruct.origin).nodup_iff, List.map_map]
      rfl
    have hlength : pool.length = (pooled (n.fits crypto) [] l).length := by
      rw [hpool.length_eq, List.length_map]
    rw [acceptable_proposal_iff hstanding hsame hne hvalid, ← horigins, ← hlength]
    constructor
    · intro h
      exact ⟨h.2, (validateMessage_proposal_iff hformat hstanding hnow hne
        (fun t ht => (validateTx_iff.mp (hvalid t ht)).1) h.2).mp h.1⟩
    · intro h
      exact ⟨(validateMessage_proposal_iff hformat hstanding hnow hne
        (fun t ht => (validateTx_iff.mp (hvalid t ht)).1) h.1).mpr h.2, h.1⟩

/-! ## §4. A copied transaction. -/

open Blockchain (sampleStart sampleTx)

/-- The same commands, signed by peer 1. -/
def secondTx : TransactionStruct := { sampleTx with origin := keyOf 1, sig := label 86 1 }

/-- Labels for what the sample signs, and one more for everything else. -/
def poolCrypto : Crypto :=
  let sigs := [(keyOf 0, signedText 2 sampleTx.commands), (keyOf 1, signedText 2 sampleTx.commands)]
  { hash := fun d => label 43 ([genesisText 3].idxOf d)
    sign := fun pk d => label 86 (sigs.idxOf (pk, d))
    verifySignature := fun pk sig d => decide (sig = label 86 (sigs.idxOf (pk, d))) }

theorem poolCrypto_formatted : poolCrypto.Formatted := by
  have hkeys : ∀ i < 2, isKeyText (label 43 i) = true := by decide +kernel
  have hsigs : ∀ i < 3, isSigText (label 86 i) = true := by decide +kernel
  refine ⟨fun d => hkeys _ ?_, fun pk d => hsigs _ ?_⟩
  · exact Nat.lt_succ_of_le List.idxOf_le_length
  · exact Nat.lt_succ_of_le List.idxOf_le_length

def poolStart : Node := start (sampleStart 0)

theorem idle_poolStart : Idle poolStart := ⟨rfl, rfl, rfl, rfl, rfl⟩

theorem standing_poolStart :
    Standing poolStart.toConsensus (poolStart.chain.latestBlock.getD default) :=
  ⟨by decide +kernel, by decide +kernel, by decide +kernel, by decide +kernel⟩

/-- Two peers send one transaction each. -/
theorem proposal_passes_of_sample :
    ∃ b, ((poolStart.collect poolCrypto [⟨keyOf 0, 2, sampleTx⟩, ⟨keyOf 1, 2, secondTx⟩]).step
          poolCrypto allOnline .timeoutProposeBlock).sent
        = poolStart.sent ++ [poolStart.message 1 [] (.proposeBlock b)]
      ∧ ∀ c' : Consensus, SameChain poolStart.toConsensus c' →
        validateMessage (poolStart.message 1 [] (.proposeBlock b)) = true
          ∧ c'.acceptable poolCrypto b = true := by
  obtain ⟨b, hsent, hpasses⟩ := proposal_passes_iff poolCrypto_formatted idle_poolStart
    standing_poolStart [⟨keyOf 0, 2, sampleTx⟩, ⟨keyOf 1, 2, secondTx⟩] allOnline (Nat.le_refl 1)
    (by decide +kernel)
  exact ⟨b, hsent, fun c' hsame => (hpasses c' hsame).mpr (by decide +kernel)⟩

/-- **A copied transaction**: peer 1 sends the transaction of peer 0 as its own
message, and the block with both is turned away. -/
theorem proposal_with_copy :
    ¬ ∀ (l : List AddTx) (b : BlockStruct),
      ((poolStart.collect poolCrypto l).step poolCrypto allOnline .timeoutProposeBlock).sent
          = poolStart.sent ++ [poolStart.message 1 [] (.proposeBlock b)] →
        ∀ c' : Consensus, SameChain poolStart.toConsensus c' →
          validateMessage (poolStart.message 1 [] (.proposeBlock b)) = true
            ∧ c'.acceptable poolCrypto b = true := by
  intro hclaim
  have hturned := (hclaim [⟨keyOf 0, 2, sampleTx⟩, ⟨keyOf 1, 2, sampleTx⟩]
    (poolStart.proposal poolCrypto [sampleTx, sampleTx]) (by decide +kernel)
    poolStart.toConsensus ⟨rfl, rfl, rfl⟩).2
  exact absurd hturned (by decide +kernel)

end Node

end Divachain
