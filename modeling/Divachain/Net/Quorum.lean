/-
  Divachain.Net.Quorum — what follows when the validator finds a quorum.

  `processSignBlock` takes any vote for the hash of the candidate whose origin
  has not voted yet: from members and from strangers, signed or not.  Adding
  the block checks every signature, and the confirmation carries sixteen votes
  at most.  `counted` lists the votes that get in out of a sequence of messages.

  A node handles a vote, or a confirmation, in a turn of its own: it calculates
  the validator first, from the peers it sees online, and what comes of a call
  of `add` is known when its last command has been applied.

  Main result: once the quorum is found, the calls of `add` here and at a peer
  return true, and the confirmation passes the schema, if and only if the
  candidate is well formed, every vote that got in verifies, they are at most
  fifteen besides the validator's own, the peer finds the same validator, and
  the stake vote of the block does not fail at either node.
-/
import Divachain.Net.Applied
import Divachain.Net.Proposal

namespace Divachain

open DataKit

/-- What `processSignBlock` reads of a message. -/
structure SignBlock where
  origin : Text
  hash : Text
  sig : Text
  deriving DecidableEq, Repr

namespace SignBlock

/-- The message passes `sign-block.json`. -/
def valid (m : SignBlock) : Bool := isKeyText m.origin && (isKeyText m.hash && isSigText m.sig)

def vote (m : SignBlock) : VoteStruct := { origin := m.origin, sig := m.sig }

/-- What comes in with a message. -/
def ofMessage (m : Message) : SignBlock :=
  match m.data with
  | .signBlock hash sig => { origin := m.origin, hash := hash, sig := sig }
  | _ => { origin := m.origin, hash := [], sig := [] }

end SignBlock

/-- Of every origin the first message for `hash`; `seen` are the origins so far. -/
def counted (hash : Text) : List Text → List SignBlock → List SignBlock
  | _, [] => []
  | seen, m :: l =>
      if m.hash = hash ∧ m.origin ∉ seen then m :: counted hash (seen ++ [m.origin]) l
      else counted hash seen l

theorem mem_of_mem_counted {hash : Text} :
    ∀ {seen : List Text} {l : List SignBlock} {m : SignBlock}, m ∈ counted hash seen l → m ∈ l
  | _, [], _, h => nomatch h
  | seen, m' :: l, m, h => by
      unfold counted at h
      split at h
      · rcases List.mem_cons.mp h with rfl | h
        · exact List.mem_cons_self
        · exact List.mem_cons_of_mem m' (mem_of_mem_counted h)
      · exact List.mem_cons_of_mem m' (mem_of_mem_counted h)

theorem counted_append (hash : Text) :
    ∀ (seen : List Text) (l l' : List SignBlock), counted hash seen (l ++ l')
      = counted hash seen l
        ++ counted hash (seen ++ (counted hash seen l).map SignBlock.origin) l'
  | seen, [], l' => by simp [counted]
  | seen, m :: l, l' => by
      rw [List.cons_append, counted, counted]
      split
      · rw [counted_append hash (seen ++ [m.origin]) l l', List.map_cons, List.append_assoc]
        rfl
      · exact counted_append hash seen l l'

/-- **Nobody is counted twice.** -/
theorem origins_counted_nodup (hash : Text) :
    ∀ {seen : List Text} (l : List SignBlock), seen.Nodup →
      (seen ++ (counted hash seen l).map SignBlock.origin).Nodup
  | seen, [], h => by
      unfold counted
      rw [List.map_nil, List.append_nil]
      exact h
  | seen, m :: l, h => by
      unfold counted
      split
      -- A vote is counted when its origin is not among those seen; the tail sees it too.
      next hnew =>
        have hseen : (seen ++ [m.origin]).Nodup :=
          List.nodup_append.mpr ⟨h, List.nodup_singleton _, by
            intro a ha b hb
            rw [List.mem_singleton.mp hb]
            rintro rfl
            exact hnew.2 ha⟩
        have hrest := origins_counted_nodup hash l hseen
        rw [List.append_assoc] at hrest
        exact hrest
      next => exact origins_counted_nodup hash l h

namespace Consensus

variable (crypto : Crypto)

/-! ## §1. Collecting votes. -/

/-- The validator handles the messages one after the other, each at its time. -/
def collectSigns (c : Consensus) (l : List (Nat × SignBlock)) : Consensus :=
  l.foldl (fun c m => c.processSignBlock crypto m.1 m.2.origin m.2.hash m.2.sig) c

/-- The proposal with the votes it has got. -/
def candidate (c : Consensus) (pool : List TransactionStruct) (l : List SignBlock) : BlockStruct :=
  let b := c.proposal crypto pool
  { b with votes := b.votes ++ (counted b.hash [c.chain.publicKey] l).map SignBlock.vote }

/-- What counting votes leaves: the candidate has the new votes, and the chain
may have stored the block. -/
structure Collected (hash : Text) (l : List SignBlock) (obj : Nat) (c c' : Consensus) : Prop where
  block : c'.block = some obj
  candidate : c'.objects obj = { c.objects obj with
    votes := (c.objects obj).votes
      ++ (counted hash ((c.objects obj).votes.map VoteStruct.origin) l).map SignBlock.vote }
  chain : c'.chain = { c.chain with dbBlockchain := c'.chain.dbBlockchain }

variable {crypto} {c : Consensus}

theorem startAdd_frame (crypto : Crypto) (c : Consensus) (obj : Nat) (fromSync : Bool) :
    (c.startAdd crypto obj fromSync).block = c.block
      ∧ (c.startAdd crypto obj fromSync).objects = c.objects
      ∧ (c.startAdd crypto obj fromSync).sent = c.sent
      ∧ (c.startAdd crypto obj fromSync).chain
        = { c.chain with dbBlockchain := (c.startAdd crypto obj fromSync).chain.dbBlockchain } := by
  rcases c.startAdd_cases crypto obj fromSync with ⟨-, hstep⟩ | ⟨-, hstep⟩
  · rw [hstep]
    exact ⟨rfl, rfl, rfl, rfl⟩
  · rw [hstep]
    exact ⟨rfl, rfl, rfl, rfl⟩

/-- **A vote is turned away for its hash or for its origin**, and for nothing else. -/
theorem votable_eq_some_iff {obj : Nat} (hblock : c.block = some obj) {origin hash : Text} :
    c.votable origin hash = some obj
      ↔ hash = (c.objects obj).hash ∧ origin ∉ (c.objects obj).votes.map VoteStruct.origin := by
  have hany : ((c.objects obj).votes.any fun v => decide (v.origin = origin)) = true
      ↔ origin ∈ (c.objects obj).votes.map VoteStruct.origin := by
    simp [List.any_eq_true]
  unfold votable
  rw [hblock]
  dsimp only
  split
  next h => exact ⟨fun _ => ⟨h.1.symm, mt hany.mpr h.2⟩, fun _ => rfl⟩
  next h => exact ⟨fun heq => (nomatch heq), fun hok => absurd ⟨hok.1.symm, mt hany.mp hok.2⟩ h⟩

/-- One message. -/
theorem collected_one (crypto : Crypto) {obj : Nat} (hblock : c.block = some obj)
    (m : Nat × SignBlock) :
    Collected (c.objects obj).hash [m.2] obj c
      (c.processSignBlock crypto m.1 m.2.origin m.2.hash m.2.sig) := by
  -- Counted: the vote is appended, and a quorum may start the task at once.
  by_cases hok : m.2.hash = (c.objects obj).hash
      ∧ m.2.origin ∉ (c.objects obj).votes.map VoteStruct.origin
  · have hvotable := (votable_eq_some_iff hblock).mpr hok
    unfold processSignBlock
    rw [hvotable]
    dsimp only
    set pushed := c.pushVote obj { origin := m.2.origin, sig := m.2.sig } with hpushed
    have hvotes : pushed.objects obj = { c.objects obj with
        votes := (c.objects obj).votes
          ++ (counted (c.objects obj).hash ((c.objects obj).votes.map VoteStruct.origin)
            [m.2]).map SignBlock.vote } := by
      rw [counted, if_pos hok, counted]
      exact objects_write_self
    obtain ⟨hstartBlock, hstartObjects, -, hstartChain⟩ :=
      startAdd_frame crypto pushed obj false
    split
    · exact ⟨hstartBlock.trans hblock, (congrFun hstartObjects obj).trans hvotes, hstartChain⟩
    · exact ⟨hblock, hvotes, rfl⟩
  -- Another hash or an origin that has voted: nothing happens.
  · have hvotable : c.votable m.2.origin m.2.hash = none := by
      refine Option.eq_none_iff_forall_ne_some.mpr ?_
      intro obj' hobj'
      obtain rfl : obj' = obj := Option.some.inj ((block_of_votable hobj').1.symm.trans hblock)
      exact hok ((votable_eq_some_iff hblock).mp hobj')
    unfold processSignBlock
    rw [hvotable]
    refine ⟨hblock, ?_, rfl⟩
    rw [counted, if_neg hok, counted, List.map_nil, List.append_nil]

/-- **The candidate has the votes of `counted`**, whatever the messages were. -/
theorem collected (crypto : Crypto) {obj : Nat} :
    ∀ {c : Consensus} (l : List (Nat × SignBlock)), c.block = some obj →
      Collected (c.objects obj).hash (l.map Prod.snd) obj c (c.collectSigns crypto l)
  | c, [], hblock => ⟨hblock, by simp [collectSigns, counted], rfl⟩
  | c, m :: l, hblock => by
      have hone := collected_one crypto hblock m
      set d := c.processSignBlock crypto m.1 m.2.origin m.2.hash m.2.sig with hd
      have hrest : Collected (d.objects obj).hash (l.map Prod.snd) obj d
          (d.collectSigns crypto l) := collected crypto l hone.block
      have hhash : (d.objects obj).hash = (c.objects obj).hash := by rw [hone.candidate]
      -- The origins seen by the rest are those of the votes the candidate has by now.
      have horigins : (d.objects obj).votes.map VoteStruct.origin
          = (c.objects obj).votes.map VoteStruct.origin
            ++ (counted (c.objects obj).hash ((c.objects obj).votes.map VoteStruct.origin)
              [m.2]).map SignBlock.origin := by
        rw [hone.candidate, List.map_append, List.map_map]
        rfl
      refine ⟨hrest.block, ?_, ?_⟩
      · show (d.collectSigns crypto l).objects obj = _
        have hsplit := counted_append (c.objects obj).hash
          ((c.objects obj).votes.map VoteStruct.origin) [m.2] (l.map Prod.snd)
        rw [List.singleton_append] at hsplit
        rw [hrest.candidate, hhash, horigins, hone.candidate, List.map_cons, hsplit,
          List.map_append, List.append_assoc]
      · show (d.collectSigns crypto l).chain = _
        rw [hrest.chain, hone.chain]
        rfl

/-! ## §2. The candidate and its confirmation. -/

open Node (Standing SameChain)

/-- The origins of the votes of a candidate are different. -/
theorem origins_candidate_nodup (crypto : Crypto) (c : Consensus) (pool : List TransactionStruct)
    (l : List SignBlock) :
    ((c.candidate crypto pool l).votes.map VoteStruct.origin).Nodup := by
  have hnodup := origins_counted_nodup (c.proposal crypto pool).hash l
    (List.nodup_singleton c.chain.publicKey)
  have horigins : (c.candidate crypto pool l).votes.map VoteStruct.origin
      = [c.chain.publicKey]
        ++ (counted (c.proposal crypto pool).hash [c.chain.publicKey] l).map SignBlock.origin := by
    show ([c.ownVote crypto (c.proposal crypto pool).hash] ++ _).map VoteStruct.origin = _
    rw [List.map_append, List.map_map]
    rfl
  rw [horigins]
  exact hnodup

/-- **The schema sees the number of votes.** -/
theorem validateMessage_confirmation_iff {latest : BlockStruct} (hformat : crypto.Formatted)
    (hc : Standing c latest) {now : Nat} (hnow : 1 ≤ now) (pool : List TransactionStruct)
    {l : List SignBlock} (hl : ∀ m ∈ l, m.valid = true) :
    validateMessage (c.message now [] (.confirmBlock (c.candidate crypto pool l).hash
        (c.candidate crypto pool l).votes)) = true
      ↔ (counted (c.proposal crypto pool).hash [c.chain.publicKey] l).length ≤ 15 := by
  set signs := counted (c.proposal crypto pool).hash [c.chain.publicKey] l with hsigns
  have hvotes : (c.candidate crypto pool l).votes
      = c.ownVote crypto (c.proposal crypto pool).hash :: signs.map SignBlock.vote := rfl
  have hhash : isKeyText (c.candidate crypto pool l).hash = true := hformat.hash _
  have hall : (c.candidate crypto pool l).votes.all VoteStruct.valid = true := by
    rw [hvotes, List.all_eq_true]
    intro v hv
    rw [VoteStruct.valid, Bool.and_eq_true]
    rcases List.mem_cons.mp hv with rfl | hv
    · exact ⟨hc.key_ok, hformat.sign _ _⟩
    · obtain ⟨m, hm, rfl⟩ := List.mem_map.mp hv
      have hvalid := hl m (mem_of_mem_counted hm)
      rw [SignBlock.valid, Bool.and_eq_true, Bool.and_eq_true] at hvalid
      exact ⟨hvalid.1, hvalid.2.2⟩
  -- Votes with distinct origins are distinct, as the schema wants them.
  have hdistinct : (c.candidate crypto pool l).votes.Pairwise
      fun v w => decide (v = w) = false := by
    have hnodup := origins_candidate_nodup crypto c pool l
    rw [List.Nodup, List.pairwise_map] at hnodup
    refine hnodup.imp ?_
    intro v w hne
    exact decide_eq_false fun heq => hne (congrArg VoteStruct.origin heq)
  -- The own vote makes it one more than the votes counted.
  have hlength : (c.candidate crypto pool l).votes.length = signs.length + 1 := by
    rw [hvotes, List.length_cons, List.length_map]
  unfold validateMessage
  show (decide (1 ≤ now) && isKeyText c.chain.publicKey && true
    && (isKeyText (c.candidate crypto pool l).hash
      && (((c.candidate crypto pool l).votes.all VoteStruct.valid)
        && (decide (1 ≤ (c.candidate crypto pool l).votes.length)
          && decide ((c.candidate crypto pool l).votes.length ≤ 16)
          && decide ((c.candidate crypto pool l).votes.Pairwise
            fun v w => decide (v = w) = false))))) = true ↔ _
  rw [decide_eq_true hnow, hc.key_ok, hhash, hall, decide_eq_true hdistinct, hlength]
  simp only [Bool.true_and, Bool.and_true, Bool.and_eq_true, decide_eq_true_eq]
  omega

/-- **The guard of `add` sees the candidate and the signatures**, once there is
a quorum. -/
theorem accepts_candidate_iff {c' : Consensus} {latest : BlockStruct}
    (hcorrect : crypto.SignCorrect) (hc : Standing c latest) (hsame : SameChain c c')
    (pool : List TransactionStruct) (l : List SignBlock)
    (hquorum : c.chain.hasQuorumWeighted
      ((c.candidate crypto pool l).votes.map VoteStruct.origin) = true) :
    c'.chain.accepts crypto (c.candidate crypto pool l) = true
      ↔ validateBlock crypto c.chain.toLedger (c.proposal crypto pool) false = true
        ∧ ∀ m ∈ counted (c.proposal crypto pool).hash [c.chain.publicKey] l,
          crypto.verifySignature m.origin m.sig (c.proposal crypto pool).hash = true := by
  have hheight : (c.candidate crypto pool l).height = c'.chain.height + 1 := by
    rw [hsame.height, ← hc.height_eq]
    show (c.chain.latestBlock.getD default).height + 1 = _
    rw [hc.latest_eq]
    rfl
  have hprev : c'.chain.latestBlock.map BlockStruct.hash
      = some (c.candidate crypto pool l).previousHash := by
    rw [hsame.latest]
    show _ = some (c.chain.latestBlock.getD default).hash
    rw [hc.latest_eq]
    rfl
  rw [Blockchain.accepts_iff, hsame.ledger, ← validateBlock_false_iff]
  constructor
  · rintro ⟨-, -, hblock, hvotes⟩
    refine ⟨hblock, fun m hm => ?_⟩
    exact hvotes.verified m.vote (List.mem_append_right _ (List.mem_map_of_mem hm))
  · rintro ⟨hblock, hsigns⟩
    refine ⟨hheight.symm, hprev, hblock, origins_candidate_nodup crypto c pool l, ?_, hquorum⟩
    intro v hv
    rcases List.mem_append.mp hv with hv | hv
    · obtain rfl : v = c.ownVote crypto (c.proposal crypto pool).hash := List.mem_singleton.mp hv
      -- its own signature verifies
      exact hcorrect _ _
    · obtain ⟨m, hm, rfl⟩ := List.mem_map.mp hv
      exact hsigns m hm

end Consensus

namespace Node

open Consensus (Collected candidate collected collectSigns startAdd_frame)

variable {crypto : Crypto} {n : Node} {turn : Turn} {v : Text}

/-! ## §3. Messages, once the validator is known. -/

/-- Where `broadcast` returns, the consensus part goes on and that is all. -/
theorem transmit_of_known (h : n.canBroadcast = true) (c : Consensus) :
    n.transmit c = { n with toConsensus := c } := by
  unfold transmit
  rw [h, Bool.not_true, Bool.and_false, Bool.or_false]

theorem calcValidator_of_finds (h : n.findValidator (n.isOnline turn) = some v) :
    n.calcValidator turn = { n with validator := v } := by
  unfold calcValidator
  rw [h]

/-- A message from the validator, or to it. -/
theorem processMessage_of_finds (hrun : n.halted = false)
    (h : n.findValidator (n.isOnline turn) = some v) (f : Node → Node) :
    (n.calcValidator turn).andThen f = f { n with validator := v } := by
  rw [calcValidator_of_finds h]
  exact andThen_of_running _ f hrun

/-- A node that has proposed a block and still runs can broadcast. -/
theorem canBroadcast_of_proposed (hrun : n.halted = false) (harmed : n.timeoutProposeBlock = true)
    (h : (n.step crypto turn .timeoutProposeBlock).halted = false) : n.canBroadcast = true := by
  rw [step_of_running crypto hrun, react, if_pos harmed] at h
  have hlonger : n.sent.length
      < (n.toConsensus.propose crypto turn.now n.arrayPoolTx).sent.length := by
    show _ < (n.sent ++ [_]).length
    rw [List.length_append, List.length_singleton]
    exact Nat.lt_succ_self _
  have hsends : (n.halted || (decide (n.sent.length
      < (n.toConsensus.propose crypto turn.now n.arrayPoolTx).sent.length)
        && !n.canBroadcast)) = false := h
  rw [hrun, decide_eq_true hlonger, Bool.false_or, Bool.true_and] at hsends
  simpa using hsends

/-- The timer of the validator fires. -/
theorem step_timeoutProposeBlock (crypto : Crypto) (turn : Turn) (hrun : n.halted = false)
    (hknown : n.canBroadcast = true) (harmed : n.timeoutProposeBlock = true) :
    n.step crypto turn .timeoutProposeBlock
      = { n with
          toConsensus := n.toConsensus.propose crypto turn.now n.arrayPoolTx
          timeoutProposeBlock := false } := by
  rw [step_of_running crypto hrun]
  refine (if_pos harmed).trans ?_
  exact transmit_of_known (n := { n with timeoutProposeBlock := false }) hknown _

/-- **The validator counts a vote.** -/
theorem step_signBlock (crypto : Crypto) (hrun : n.halted = false)
    (hknown : n.canBroadcast = true) (hfinds : n.findValidator (n.isOnline turn) = some v)
    (hv : n.chain.publicKey = v) {m : Message} {hash sig : Text} (hdata : m.data = .signBlock hash sig)
    (hvalid : validateMessage m = true) :
    n.step crypto turn (.message m)
      = { n with
          toConsensus := n.toConsensus.processSignBlock crypto turn.now m.origin hash sig
          validator := v } := by
  rw [step_of_running crypto hrun, react, if_pos hvalid]
  unfold processMessage
  rw [hdata]
  dsimp only
  rw [processMessage_of_finds hrun hfinds]
  refine (if_pos (decide_eq_true hv)).trans ?_
  exact transmit_of_known (n := { n with validator := v }) hknown _

/-- **A peer takes the votes of a confirmation over.** -/
theorem step_confirmBlock (crypto : Crypto) (hrun : n.halted = false)
    (hfinds : n.findValidator (n.isOnline turn) = some v) {m : Message} {hash : Text}
    {votes : List VoteStruct} (hdata : m.data = .confirmBlock hash votes) (horigin : m.origin = v)
    (hvalid : validateMessage m = true) :
    n.step crypto turn (.message m)
      = { n with
          toConsensus := n.toConsensus.processConfirmBlock crypto hash votes
          validator := v } := by
  rw [step_of_running crypto hrun, react, if_pos hvalid]
  unfold processMessage
  rw [hdata]
  dsimp only
  rw [processMessage_of_finds hrun hfinds]
  exact if_pos (decide_eq_true horigin)

/-- A confirmation of somebody else than the validator starts nothing. -/
theorem adds_step_confirmBlock (hrun : n.halted = false) {m : Message} {hash : Text}
    {votes : List VoteStruct} (hdata : m.data = .confirmBlock hash votes)
    (hvalid : validateMessage m = true)
    (hfinds : n.findValidator (n.isOnline turn) ≠ some m.origin) :
    (n.step crypto turn (.message m)).adds = n.adds := by
  rw [step_of_running crypto hrun, react, if_pos hvalid]
  unfold processMessage
  rw [hdata]
  dsimp only
  cases hfound : n.findValidator (n.isOnline turn) with
  | none =>
      -- the search throws or hangs
      unfold calcValidator
      rw [hfound]
      rfl
  | some v =>
      rw [processMessage_of_finds hrun hfound]
      have hother : ¬ ({ n with validator := v } : Node).isValidator m.origin = true := by
        intro h
        exact hfinds (hfound.trans (congrArg some (of_decide_eq_true h).symm))
      rw [if_neg hother]

/-! ## §4. A call, from its guard to its end. -/

/-- There is no such call. -/
theorem not_adds {i : Nat} (h : n.adds[i]? = none) (turns : List Turn) (b : BlockStruct) :
    ¬ Adds crypto n i turns b := by
  have hstep : ∀ turn : Turn, n.step crypto turn (.resumeAdd i) = n := by
    intro turn
    by_cases hrun : n.halted = true
    · exact step_of_halted crypto hrun turn _
    · rw [step_of_running crypto (Bool.eq_false_iff.mpr hrun), react, resumeAdd, h]
  have hrun : ∀ turns : List Turn, n.run crypto (resuming i turns) = n := by
    intro turns
    induction turns with
    | nil => rfl
    | cons turn turns ih =>
        show (n.step crypto turn (.resumeAdd i)).run crypto (resuming i turns) = n
        rw [hstep]
        exact ih
  unfold Adds
  rw [hrun]
  intro h
  have hlength := congrArg List.length h
  rw [List.length_append, List.length_singleton] at hlength
  omega

/-- **A call of `add` returns true** if the block passes the guard and its stake vote
does not fail. -/
theorem adds_startAdd_iff {a p : Node} {c : Consensus} {obj : Nat} {b : BlockStruct}
    {turns : List Turn} (hrun : p.halted = false)
    (hadds : p.adds = (c.startAdd crypto obj false).adds) (hobject : p.objects obj = b)
    (hb : c.objects obj = b) (halike : VotesAlike a p)
    (hlength : turns.length = (commandsOf b.tx).length) :
    Adds crypto p c.adds.length (turns ++ [turn]) b
      ↔ c.chain.accepts crypto b = true ∧ Completes crypto (a.withCommands b) turn b := by
  rcases c.startAdd_cases crypto obj false with ⟨haccepts, hstart⟩ | ⟨haccepts, hstart⟩
  · rw [hb] at haccepts hstart
    rw [hstart] at hadds
    set t : AddTask := { obj := obj, pos := 0, stored := b, fromSync := false } with ht
    have htask : p.adds[c.adds.length]? = some t := by
      rw [hadds]
      show (c.adds ++ [t])[c.adds.length]? = some t
      rw [List.getElem?_append_right (Nat.le_refl _), Nat.sub_self]
      rfl
    have hends := adds_iff crypto turn halike hrun htask rfl hobject hlength.symm
    exact hends.trans (iff_and_self.mpr fun _ => haccepts)
  · rw [hb] at haccepts
    rw [hstart] at hadds
    refine iff_of_false (not_adds ?_ _ _) fun h => Bool.false_ne_true (haccepts.symm.trans h.1)
    rw [hadds, List.getElem?_eq_none_iff]

/-- **A confirmation at a peer that holds the candidate.** -/
theorem follows_iff (crypto : Crypto) {obj : Nat} {b : BlockStruct} {turns : List Turn}
    (heard turn : Turn) (hrun : n.halted = false) (hblock : n.block = some obj)
    (hb : (n.objects obj).withoutVotes = b.withoutVotes) (hpos : 0 < b.height) {m : Message}
    (hdata : m.data = .confirmBlock b.hash b.votes) (hvalid : validateMessage m = true)
    (hlength : turns.length = (commandsOf b.tx).length) :
    Adds crypto (n.step crypto heard (.message m)) n.adds.length (turns ++ [turn]) b
      ↔ n.findValidator (n.isOnline heard) = some m.origin ∧ n.chain.accepts crypto b = true
        ∧ Completes crypto (n.withCommands b) turn b := by
  by_cases hfinds : n.findValidator (n.isOnline heard) = some m.origin
  · -- the peer takes the votes of the confirmation over into the block it holds
    have hfields : { n.objects obj with votes := b.votes } = b :=
      congrArg (fun x : BlockStruct => { x with votes := b.votes }) hb
    have hhash := congrArg BlockStruct.hash hb
    have hheight := congrArg BlockStruct.height hb
    change (n.objects obj).hash = b.hash at hhash
    change (n.objects obj).height = b.height at hheight
    have hheld : n.hasBlock = true := by
      rw [Consensus.hasBlock, Consensus.held, hblock]
      show decide (0 < (n.objects obj).height) = true
      rw [hheight]
      exact decide_eq_true hpos
    set c := n.toConsensus.write obj b with hc
    have hprocess : n.toConsensus.processConfirmBlock crypto b.hash b.votes
        = c.startAdd crypto obj false := by
      unfold Consensus.processConfirmBlock
      rw [hblock]
      dsimp only
      rw [if_pos ⟨hheld, hhash⟩, hfields]
    have hstep := step_confirmBlock crypto hrun hfinds hdata rfl hvalid
    rw [hprocess] at hstep
    obtain ⟨-, hobjects, -, hchain⟩ := startAdd_frame crypto c obj false
    have hstart : Adds crypto (n.step crypto heard (.message m)) c.adds.length (turns ++ [turn]) b
        ↔ c.chain.accepts crypto b = true ∧ Completes crypto (n.withCommands b) turn b := by
      rw [hstep]
      refine adds_startAdd_iff hrun rfl ?_ Consensus.objects_write_self ?_ hlength
      · show (c.startAdd crypto obj false).objects obj = b
        rw [hobjects]
        exact Consensus.objects_write_self
      · -- only the store has changed
        have hledger := congrArg Blockchain.toLedger hchain
        have hkey := congrArg Blockchain.publicKey hchain
        have hvotes := congrArg Blockchain.mapVoteStake hchain
        exact ⟨hledger, hkey, hvotes, rfl, rfl, rfl, rfl⟩
    exact hstart.trans (and_iff_right hfinds).symm
  · refine iff_of_false (not_adds ?_ _ _) fun h => hfinds h.1
    rw [adds_step_confirmBlock hrun hdata hvalid hfinds, List.getElem?_eq_none_iff]

/-! ## §5. The votes that come in. -/

/-- The message brings a vote, and the node finds that it is the validator itself. -/
structure TakesVote (n : Node) (x : Turn × Message) : Prop where
  vote : ∃ hash sig, x.2.data = .signBlock hash sig
  valid : validateMessage x.2 = true
  validator : n.findValidator (n.isOnline x.1) = some n.chain.publicKey

theorem TakesVote.ofMessage_valid {x : Turn × Message} (h : TakesVote n x) :
    (SignBlock.ofMessage x.2).valid = true := by
  obtain ⟨hash, sig, hdata⟩ := h.vote
  have hvalid := h.valid
  unfold validateMessage at hvalid
  rw [hdata] at hvalid
  unfold SignBlock.ofMessage SignBlock.valid
  rw [hdata]
  simp only [MessageData.valid, Bool.and_eq_true] at hvalid ⊢
  exact ⟨hvalid.1.1.2, hvalid.2⟩

/-- The votes of these messages. -/
def signsIn (l : List (Turn × Message)) : List SignBlock :=
  l.map fun x => SignBlock.ofMessage x.2

/-- The votes of these messages, each with its time. -/
def votesIn (l : List (Turn × Message)) : List (Nat × SignBlock) :=
  l.map fun x => (x.1.now, SignBlock.ofMessage x.2)

/-- The proposal timer has fired, and then these messages have come in. -/
def collecting (crypto : Crypto) (n : Node) (turn : Turn) (l : List (Turn × Message)) : Node :=
  (n.step crypto turn .timeoutProposeBlock).run crypto (l.map fun x => (x.1, .message x.2))

/-- A store that has got a block changes nothing in the search for the validator. -/
theorem finds_of_store {m : Node} {db : Store Nat BlockStruct}
    (hchain : m.chain = { n.chain with dbBlockchain := db })
    (harray : m.arrayNetwork = n.arrayNetwork) :
    m.findValidator (m.isOnline turn) = n.findValidator (n.isOnline turn) := by
  have honline : m.isOnline turn = n.isOnline turn := by
    funext k
    rw [isOnline, isOnline, hchain]
  rw [honline]
  unfold findValidator firstIndex
  rw [hchain, harray]

/-- **Only its consensus part changes** in a node that collects votes. -/
theorem collecting_eq (crypto : Crypto) (turn : Turn) (hrun : n.halted = false)
    (hknown : n.canBroadcast = true) (harmed : n.timeoutProposeBlock = true) (l : List (Turn × Message))
    (hl : ∀ x ∈ l, TakesVote n x) :
    ∃ v, n.collecting crypto turn l
      = { n with
          toConsensus := (n.toConsensus.propose crypto turn.now n.arrayPoolTx).collectSigns crypto
            (votesIn l)
          timeoutProposeBlock := false
          validator := v } := by
  induction l using List.reverseRecOn with
  | nil => exact ⟨n.validator, step_timeoutProposeBlock crypto turn hrun hknown harmed⟩
  | append_singleton l x ih =>
      obtain ⟨v, hbefore⟩ := ih fun y hy => hl y (List.mem_append_left _ hy)
      have hx := hl x (List.mem_append_right _ List.mem_cons_self)
      obtain ⟨hash, sig, hdata⟩ := hx.vote
      set c := (n.toConsensus.propose crypto turn.now n.arrayPoolTx).collectSigns crypto
        (votesIn l) with hc
      set m := n.collecting crypto turn l with hm
      have hchain : m.chain = { n.chain with dbBlockchain := c.chain.dbBlockchain } := by
        rw [hbefore]
        exact (collected crypto (c := n.toConsensus.propose crypto turn.now n.arrayPoolTx)
          (votesIn l) rfl).chain
      have harray : m.arrayNetwork = n.arrayNetwork := by rw [hbefore]
      have hfinds : m.findValidator (m.isOnline x.1) = some n.chain.publicKey :=
        (finds_of_store hchain harray).trans hx.validator
      have hknown' : m.canBroadcast = true := by
        rw [canBroadcast, harray, hchain]
        exact hknown
      have hkey : m.chain.publicKey = n.chain.publicKey := by rw [hchain]
      have hstep := step_signBlock crypto (by rw [hbefore]; exact hrun) hknown' hfinds
        hkey hdata hx.valid
      have hlast : n.collecting crypto turn (l ++ [x]) = m.step crypto x.1 (.message x.2) := by
        unfold collecting
        rw [List.map_append]
        exact List.foldl_append ..
      refine ⟨n.chain.publicKey, ?_⟩
      rw [hlast, hstep, hbefore]
      unfold votesIn collectSigns SignBlock.ofMessage
      rw [List.map_append, List.foldl_append, List.map_singleton, hdata]
      rfl

/-- **What a message makes the validator do that reaches the quorum**: it starts a
call with the candidate and broadcasts the confirmation. -/
structure Found (crypto : Crypto) (n : Node) (now : Nat) (l : List SignBlock) (m m' : Node)
    (c : Consensus) : Prop where
  block : c.block = some n.next
  object : c.objects n.next = n.candidate crypto n.arrayPoolTx l
  chain : c.chain = { n.chain with dbBlockchain := c.chain.dbBlockchain }
  adds : c.adds = m.adds
  sent : c.sent = m.sent
  quorum : n.chain.hasQuorumWeighted
    ((n.candidate crypto n.arrayPoolTx l).votes.map VoteStruct.origin) = true
  running : m'.halted = false
  alike : VotesAlike n m'
  core : m'.toConsensus = (c.startAdd crypto n.next false).send (c.confirmation now n.next)

theorem found (crypto : Crypto) (turn : Turn) (hrun : n.halted = false)
    (hknown : n.canBroadcast = true) (harmed : n.timeoutProposeBlock = true)
    (l : List (Turn × Message)) (x : Turn × Message)
    (hl : ∀ y ∈ l ++ [x], TakesVote n y)
    (hreached : (n.collecting crypto turn (l ++ [x])).sent ≠ (n.collecting crypto turn l).sent) :
    ∃ c, Found crypto n x.1.now (signsIn (l ++ [x])) (n.collecting crypto turn l)
      (n.collecting crypto turn (l ++ [x])) c := by
  obtain ⟨v, hbefore⟩ := collecting_eq crypto turn hrun hknown harmed l
    fun y hy => hl y (List.mem_append_left _ hy)
  obtain ⟨v', hafter⟩ := collecting_eq crypto turn hrun hknown harmed
    (l ++ [x]) hl
  set p := n.toConsensus.propose crypto turn.now n.arrayPoolTx with hp
  set s := SignBlock.ofMessage x.2 with hs
  set d := p.collectSigns crypto (votesIn l) with hd
  have hlast : p.collectSigns crypto (votesIn (l ++ [x]))
      = d.processSignBlock crypto x.1.now s.origin s.hash s.sig := by
    unfold votesIn collectSigns
    rw [List.map_append, List.foldl_append]
    rfl
  rw [hlast] at hafter
  have hsigns : (votesIn (l ++ [x])).map Prod.snd = signsIn (l ++ [x]) := List.map_map
  have hown : p.objects n.next = n.toConsensus.proposal crypto n.arrayPoolTx :=
    Consensus.objects_alloc_self
  -- After any number of votes the object is the proposal with the counted ones.
  have hcollected := collected crypto (c := p) (votesIn (l ++ [x])) rfl
  have hblock := (collected crypto (c := p) (votesIn l) rfl).block
  have hdchain := (collected crypto (c := p) (votesIn l) rfl).chain
  have hcandidate := hcollected.candidate
  rw [hown, hlast, hsigns] at hcandidate
  rw [hbefore, hafter] at hreached
  rcases d.processSignBlock_cases crypto x.1.now s.origin s.hash s.sig with
    ⟨-, hquiet⟩ | ⟨obj, hvotable, ⟨-, hquiet⟩ | ⟨hquorate, hstarts⟩⟩
  · exact absurd (congrArg Consensus.sent hquiet) hreached
  · exact absurd (congrArg Consensus.sent hquiet) hreached
  -- Something was sent, so it was the confirmation.
  obtain rfl : obj = n.next :=
    Option.some.inj ((Consensus.block_of_votable hvotable).1.symm.trans hblock)
  set c := d.pushVote n.next { origin := s.origin, sig := s.sig } with hc
  obtain ⟨hsBlock, hsObjects, -, hsChain⟩ := startAdd_frame crypto c n.next false
  have hobject : c.objects n.next = n.candidate crypto n.arrayPoolTx (signsIn (l ++ [x])) := by
    rw [← hsObjects]
    rw [hstarts] at hcandidate
    exact hcandidate
  have hchain : c.chain = { n.chain with dbBlockchain := c.chain.dbBlockchain } := hdchain
  have hchain' : (n.collecting crypto turn (l ++ [x])).chain
      = { n.chain with dbBlockchain := (c.startAdd crypto n.next false).chain.dbBlockchain } := by
    rw [hafter, hstarts]
    show (c.startAdd crypto n.next false).chain = _
    rw [hsChain, hchain]
  refine ⟨c, hblock, hobject, hchain, ?_, ?_, ?_, ?_, ?_, ?_⟩
  · rw [hbefore]
    rfl
  · rw [hbefore]
    rfl
  · have hquorum : c.chain.hasQuorumWeighted
        ((c.objects n.next).votes.map VoteStruct.origin) = true := hquorate
    rw [hobject, hchain] at hquorum
    exact hquorum
  · rw [hafter]
    exact hrun
  · refine ⟨by rw [hchain'], by rw [hchain'], by rw [hchain'], ?_, ?_, ?_, ?_⟩
    all_goals rw [hafter]
  · rw [hafter]
    exact hstarts

/-! ## §6. The round. -/

/-- The turns that take the two calls of a round to their ends, and the one in which
the confirmation comes in. -/
structure RoundTurns (b : BlockStruct) where
  own : List Turn
  ownEnd : Turn
  heard : Turn
  peer : List Turn
  peerEnd : Turn
  own_length : own.length = (commandsOf b.tx).length
  peer_length : peer.length = (commandsOf b.tx).length

/-- The peer runs, and holds the block on the same chain. -/
structure HoldsToo (n : Node) (b : BlockStruct) (n' : Node) : Prop where
  running : n'.halted = false
  same : SameChain n.toConsensus n'.toConsensus
  held : ∃ obj, n'.block = some obj ∧ (n'.objects obj).withoutVotes = b.withoutVotes

/-- **The round completes**: the call of `add` that the validator has started as the
`i`-th returns true, and its confirmation passes the schema and makes the peer start
a call that returns true. -/
structure RoundCompletes (crypto : Crypto) (m : Node) (i : Nat) (b : BlockStruct)
    (confirmation : Message) (n' : Node) (turns : RoundTurns b) : Prop where
  added : Adds crypto m i (turns.own ++ [turns.ownEnd]) b
  valid : validateMessage confirmation = true
  followed : Adds crypto (n'.step crypto turns.heard (.message confirmation)) n'.adds.length
    (turns.peer ++ [turns.peerEnd]) b

/-- What the round needs: a well-formed candidate, good votes, and not too many of
them, a peer that finds the same validator, and a stake vote at both nodes that
does not fail. -/
structure RoundSound (crypto : Crypto) (n : Node) (l : List SignBlock) (b : BlockStruct)
    (n' : Node) (turns : RoundTurns b) : Prop where
  wellFormed : validateBlock crypto n.chain.toLedger
    (n.toConsensus.proposal crypto n.arrayPoolTx) false = true
  verified : ∀ s ∈ counted b.hash [n.chain.publicKey] l,
    crypto.verifySignature s.origin s.sig b.hash = true
  few : (counted b.hash [n.chain.publicKey] l).length ≤ 15
  own : Completes crypto (n.withCommands b) turns.ownEnd b
  validator : n'.findValidator (n'.isOnline turns.heard) = some n.chain.publicKey
  peer : Completes crypto (n'.withCommands b) turns.peerEnd b

/-- **What a quorum leads to.**  The validator has made its candidate from the pool
and handles any votes; the last of them makes it broadcast.  Then it broadcasts the
confirmation of the candidate, and with every peer that holds it too the round
completes if and only if it is sound. -/
theorem quorum_commits_iff {latest : BlockStruct} (turn : Turn) (hformat : crypto.Formatted)
    (hcorrect : crypto.SignCorrect) (hn : Standing n.toConsensus latest) (hrun : n.halted = false)
    (harmed : n.timeoutProposeBlock = true)
    (hproposed : (n.step crypto turn .timeoutProposeBlock).halted = false)
    (l : List (Turn × Message)) (x : Turn × Message) (hnow : 1 ≤ x.1.now)
    (hl : ∀ y ∈ l ++ [x], TakesVote n y)
    (hreached : (n.collecting crypto turn (l ++ [x])).sent ≠ (n.collecting crypto turn l).sent) :
    ∃ b confirmation, b = n.candidate crypto n.arrayPoolTx (signsIn (l ++ [x]))
      ∧ confirmation = n.message x.1.now [] (.confirmBlock b.hash b.votes)
      ∧ (n.collecting crypto turn (l ++ [x])).held = some b
      ∧ (n.collecting crypto turn (l ++ [x])).sent
        = (n.collecting crypto turn l).sent ++ [confirmation]
      ∧ ∀ n', HoldsToo n b n' → ∀ turns : RoundTurns b,
        (RoundCompletes crypto (n.collecting crypto turn (l ++ [x]))
            (n.collecting crypto turn l).adds.length b confirmation n' turns
          ↔ RoundSound crypto n (signsIn (l ++ [x])) b n' turns) := by
  have hknown := canBroadcast_of_proposed hrun harmed hproposed
  obtain ⟨c, hfound⟩ := found crypto turn hrun hknown harmed l x hl hreached
  set signs := signsIn (l ++ [x]) with hsigns
  set b := n.candidate crypto n.arrayPoolTx signs with hb
  set confirmation := n.message x.1.now [] (.confirmBlock b.hash b.votes) with hconfirmation
  obtain ⟨hblock, hobjects, hsent, -⟩ := startAdd_frame crypto c n.next false
  have hconfirms : c.confirmation x.1.now n.next = confirmation := by
    unfold Consensus.confirmation Consensus.message
    rw [hfound.object, hfound.chain]
    rfl
  have hvalid : ∀ s ∈ signs, s.valid = true := by
    intro s hs
    obtain ⟨y, hy, rfl⟩ := List.mem_map.mp hs
    exact (hl y hy).ofMessage_valid
  have hmessage : validateMessage confirmation = true ↔ _ :=
    Consensus.validateMessage_confirmation_iff hformat hn hnow n.arrayPoolTx hvalid
  have hsame : SameChain n.toConsensus c := by
    refine ⟨?_, ?_, ?_⟩
    all_goals rw [hfound.chain]
  have hown := Consensus.accepts_candidate_iff hcorrect hn hsame n.arrayPoolTx signs hfound.quorum
  refine ⟨b, confirmation, rfl, rfl, ?_, ?_, ?_⟩
  · rw [hfound.core]
    show ((c.startAdd crypto n.next false).block.map
      (c.startAdd crypto n.next false).objects) = some b
    rw [hblock, hobjects, hfound.block, Option.map_some, hfound.object]
  · rw [hfound.core, ← hconfirms, ← hfound.sent, ← hsent]
    rfl
  intro n' hn' turns
  obtain ⟨obj, hheld, hfields⟩ := hn'.held
  have hadds : Adds crypto (n.collecting crypto turn (l ++ [x]))
      (n.collecting crypto turn l).adds.length (turns.own ++ [turns.ownEnd]) b
        ↔ c.chain.accepts crypto b = true ∧ Completes crypto (n.withCommands b) turns.ownEnd b := by
    rw [← hfound.adds]
    refine adds_startAdd_iff hfound.running ?_ ?_ hfound.object hfound.alike turns.own_length
    · rw [hfound.core]
      rfl
    · rw [hfound.core]
      show (c.startAdd crypto n.next false).objects n.next = b
      rw [hobjects]
      exact hfound.object
  have hpeer := Consensus.accepts_candidate_iff hcorrect hn hn'.same n.arrayPoolTx signs
    hfound.quorum
  have hpos : 0 < b.height := Nat.succ_pos _
  have hfollows : ∀ hok : validateMessage confirmation = true, _ ↔ _ := fun hok =>
    follows_iff crypto turns.heard turns.peerEnd hn'.running hheld
      hfields hpos rfl hok turns.peer_length
  constructor
  · intro h
    obtain ⟨haccepts, hends⟩ := hadds.mp h.added
    obtain ⟨hfinds, -, hends'⟩ := (hfollows h.valid).mp h.followed
    exact ⟨(hown.mp haccepts).1, (hown.mp haccepts).2, hmessage.mp h.valid, hends, hfinds, hends'⟩
  · intro h
    have hok := hmessage.mpr h.few
    exact ⟨hadds.mpr ⟨hown.mpr ⟨h.wellFormed, h.verified⟩, h.own⟩, hok,
      (hfollows hok).mpr ⟨h.validator, hpeer.mpr ⟨h.wellFormed, h.verified⟩, h.peer⟩⟩

/-! ## §7. A bad vote. -/

open Blockchain (sampleStart sampleTx)

theorem poolCrypto_signCorrect : poolCrypto.SignCorrect := fun _ _ => decide_eq_true rfl

/-- Everybody is online whenever a call goes on. -/
def allTurns (b : BlockStruct) : RoundTurns b where
  own := List.replicate (commandsOf b.tx).length allOnline
  ownEnd := allOnline
  heard := allOnline
  peer := List.replicate (commandsOf b.tx).length allOnline
  peerEnd := allOnline
  own_length := List.length_replicate
  peer_length := List.length_replicate

/-- It is the turn of peer 1, and peer 0 has sent it a transaction. -/
def quorumNode : Node :=
  (start (sampleStart 1)).run poolCrypto
    [(allOnline, .p2pNetwork), (allOnline, .message (messageOf 0 (.addTx 2 sampleTx)))]

/-- A vote of peer 0, with the `i`-th signature. -/
def quorumVote (i : Nat) : Turn × Message :=
  (allOnline, messageOf 0 (.signBlock (label 43 1) (label 86 i)))

/-- Peer 0 has got the proposal. -/
def quorumPeer : Node :=
  (start (sampleStart 0)).run poolCrypto
    [(allOnline, .p2pNetwork),
      (allOnline, .message (messageOf 1 (.proposeBlock
        (quorumNode.toConsensus.proposal poolCrypto [sampleTx]))))]

/-- The block with this vote. -/
def quorumBlock (i : Nat) : BlockStruct :=
  quorumNode.candidate poolCrypto quorumNode.arrayPoolTx (signsIn ([] ++ [quorumVote i]))

theorem standing_quorumNode :
    Standing quorumNode.toConsensus (quorumNode.chain.latestBlock.getD default) :=
  ⟨by decide +kernel, by decide +kernel, by decide +kernel, by decide +kernel⟩

theorem takesVote_quorumVote (i : Nat) (hi : i < 3) : TakesVote quorumNode (quorumVote i) where
  vote := ⟨label 43 1, label 86 i, rfl⟩
  valid := by
    have hall : ∀ i < 3, validateMessage (quorumVote i).2 = true := by decide +kernel
    exact hall i hi
  validator := by
    have hfinds : quorumNode.findValidator (quorumNode.isOnline allOnline)
        = some quorumNode.chain.publicKey := by decide +kernel
    exact hfinds

/-- A good vote, and the block is added at both peers. -/
theorem quorum_commits_of_sample :
    RoundCompletes poolCrypto (quorumNode.collecting poolCrypto allOnline [quorumVote 2])
      (quorumNode.collecting poolCrypto allOnline []).adds.length (quorumBlock 2)
      (quorumNode.message 1 [] (.confirmBlock (quorumBlock 2).hash (quorumBlock 2).votes))
      quorumPeer (allTurns (quorumBlock 2)) := by
  obtain ⟨b, confirmation, hb, hconfirmation, -, -, hround⟩ := quorum_commits_iff
    allOnline poolCrypto_formatted poolCrypto_signCorrect standing_quorumNode
    (by decide +kernel) (by decide +kernel) (by decide +kernel) [] (quorumVote 2) (by decide)
    (by
      intro y hy
      rw [List.mem_singleton.mp hy]
      exact takesVote_quorumVote 2 (by decide))
    (by decide +kernel)
  have hblock : b = quorumBlock 2 := hb
  subst hconfirmation
  subst hblock
  have hfew : Blockchain.FewSameChars (quorumBlock 2) := by decide +kernel
  have hholds : HoldsToo quorumNode (quorumBlock 2) quorumPeer :=
    ⟨by decide +kernel, ⟨by decide +kernel, by decide +kernel, by decide +kernel⟩,
      0, by decide +kernel, by decide +kernel⟩
  exact (hround quorumPeer hholds (allTurns _)).mpr
    ⟨by decide +kernel, by decide +kernel, by decide +kernel, Or.inl hfew, by decide +kernel,
      Or.inl hfew⟩

/-- **A bad vote makes the quorum**: the confirmation goes out, and the block is
turned away. -/
theorem quorum_without_commit :
    ¬ ∀ (l : List (Turn × Message)) (x : Turn × Message), (∀ y ∈ l ++ [x], TakesVote quorumNode y) →
      (quorumNode.collecting poolCrypto allOnline (l ++ [x])).sent
          ≠ (quorumNode.collecting poolCrypto allOnline l).sent →
        ∀ b, (quorumNode.collecting poolCrypto allOnline (l ++ [x])).held = some b →
          Adds poolCrypto (quorumNode.collecting poolCrypto allOnline (l ++ [x]))
            (quorumNode.collecting poolCrypto allOnline l).adds.length
            (List.replicate (commandsOf b.tx).length allOnline ++ [allOnline]) b := by
  intro hclaim
  have hadds := hclaim [] (quorumVote 0)
    (by
      intro y hy
      rw [List.mem_singleton.mp hy]
      exact takesVote_quorumVote 0 (by decide))
    (by decide +kernel) (quorumBlock 0) (by decide +kernel)
  have hlength := congrArg List.length hadds
  exact absurd hlength (by decide +kernel)

end Node

end Divachain
