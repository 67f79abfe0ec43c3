/-
  Divachain.Net.Moves — what one turn does to the consensus part of a node.

  `Move` lists everything that can happen to the candidate, to the calls of
  `add` in flight and to the record of signatures.  `step_moves` is the
  refinement: every turn of a node is one move of its consensus part, and the
  kinds that replace or drop a candidate come from the events one expects.
  Most of the node (stack, pool, server, timers) never shows up here.
-/
import Divachain.Net.Node

namespace Divachain

open DataKit

/-! ## §1. Moves. -/

/-- The moves that need a name later. -/
inductive Kind where
  /-- The proposal timer makes a candidate out of the pool. -/
  | propose (pool : List TransactionStruct)
  /-- The candidate of another validator is accepted. -/
  | accept (b : BlockStruct)
  /-- A vote comes in. -/
  | vote (origin hash sig : Text)
  /-- A confirmation comes in. -/
  | confirm (hash : Text) (votes : List VoteStruct)
  /-- The request of the sync loop is answered. -/
  | answer (blocks : List BlockStruct)
  /-- The candidate is dropped without a commit. -/
  | drop
  /-- A call of `add` applies its next command. -/
  | command (oc : Text × Command)
  /-- A call of `add` returns true. -/
  | commit (t : AddTask)
  | other

variable (crypto : Crypto)

/-- **What can happen to the consensus part of a node.** -/
inductive Move : Consensus → Kind → Consensus → Prop where
  | quiet (c : Consensus) : Move c .other c
  | propose (c : Consensus) (now : Nat) (pool : List TransactionStruct) :
      Move c (.propose pool) (c.propose crypto now pool)
  /-- The search for the validator does not come to an end. -/
  | hold (c : Consensus) (b : BlockStruct) (h : c.acceptable crypto b = true) :
      Move c (.accept b) (c.hold b)
  | approve (c : Consensus) (b : BlockStruct) (now : Nat) (validator : Text)
      (h : c.acceptable crypto b = true) :
      Move c (.accept b) ((c.hold b).approve crypto now validator b.hash)
  | vote (c : Consensus) (now : Nat) (origin hash sig : Text) :
      Move c (.vote origin hash sig) (c.processSignBlock crypto now origin hash sig)
  | confirm (c : Consensus) (hash : Text) (votes : List VoteStruct) :
      Move c (.confirm hash votes) (c.processConfirmBlock crypto hash votes)
  | fetch (c : Consensus) (height : Nat) : Move c .other (c.fetchSync height)
  | answer (c : Consensus) (blocks : List BlockStruct) :
      Move c (.answer blocks) (c.answerSync blocks)
  | continueSync (c : Consensus) : Move c .other (c.continueSync crypto)
  | drop (c : Consensus) : Move c .drop c.drop
  | runCommand (c : Consensus) (i : Nat) (t : AddTask) (oc : Text × Command)
      (ht : c.adds[i]? = some t) (hp : c.pending t = some oc) :
      Move c (.command oc) (c.runCommand i t oc)
  | finish (c : Consensus) (i : Nat) (t : AddTask) (answer : Bool) (chain : Blockchain)
      (ht : c.adds[i]? = some t) (hp : c.pending t = none)
      (hc : c.chain.updateCache answer (c.objects t.obj) = some chain) :
      Move c (.commit t) (c.finish i t chain)

/-- The turn a kind of move comes from. -/
def Kind.from (n : Node) (turn : Turn) (e : Node.Event) : Kind → Prop
  | .propose pool => e = .timeoutProposeBlock ∧ n.timeoutProposeBlock = true ∧ pool = n.arrayPoolTx
  | .accept b => ∃ m : Message, e = .message m ∧ m.data = .proposeBlock b
      ∧ (n.calcValidator turn).isValidator m.origin = true
  | .vote origin hash sig =>
      ∃ m : Message, e = .message m ∧ m.data = .signBlock hash sig ∧ m.origin = origin
        ∧ (n.calcValidator turn).isValidator n.chain.publicKey = true
  | .confirm hash votes => ∃ m : Message, e = .message m ∧ m.data = .confirmBlock hash votes
      ∧ (n.calcValidator turn).isValidator m.origin = true
  | .answer blocks => e = .syncAnswer blocks
  | .drop => e = .timeoutRetry ∧ n.timeoutRetry = true
  | .command oc => ∃ i t, e = .resumeAdd i ∧ n.adds[i]? = some t ∧ n.pending t = some oc
  | .commit t => ∃ i, e = .resumeAdd i ∧ n.adds[i]? = some t ∧ n.pending t = none
  | .other => True

/-! ## §2. What never touches the consensus part. -/

namespace Node

variable {crypto} (n : Node) (turn : Turn)

theorem andThen_of_running (f : Node → Node) (h : n.halted = false) : n.andThen f = f n :=
  if_neg (by rw [h]; exact Bool.false_ne_true)

theorem andThen_frame {α : Type} (g : Node → α) {f : Node → Node} (h : ∀ m, g (f m) = g m) :
    g (n.andThen f) = g n := by
  unfold andThen
  split
  · rfl
  · exact h n

theorem andThen_toConsensus {f : Node → Node} (h : ∀ m, (f m).toConsensus = m.toConsensus) :
    (n.andThen f).toConsensus = n.toConsensus :=
  n.andThen_frame toConsensus h

/-- What sending transactions off does not touch. -/
def core (n : Node) : Consensus × List Text := (n.toConsensus, n.arrayNetwork)

theorem calcValidator_core : (n.calcValidator turn).core = n.core := by
  unfold calcValidator
  split <;> rfl

theorem processAddTx_core (origin : Text) (height : Nat) (tx : TransactionStruct) :
    (n.processAddTx crypto origin height tx).core = n.core := by
  unfold processAddTx
  split <;> rfl

theorem submit_core (height : Nat) (tx : TransactionStruct) :
    (n.submit crypto turn height tx).core = n.core := by
  unfold submit
  split
  · exact n.processAddTx_core _ _ _
  · exact (n.post _).andThen_frame core fun _ => rfl

theorem doAddTx_core : (n.doAddTx crypto turn).core = n.core := by
  unfold doAddTx
  split
  · rw [andThen_frame _ core fun m => m.submit_core turn _ _, calcValidator_core]
    rfl
  · rfl

theorem stack_core (commands : List Command) (ident : Text) :
    (n.stack crypto turn commands ident).core = n.core := by
  unfold stack
  dsimp only
  split
  · rw [doAddTx_core]
    rfl
  · rfl

theorem proposeModifyStake_core (publicKey ident : Text) (stake : Int) :
    (n.proposeModifyStake crypto turn publicKey ident stake).core = n.core := by
  unfold proposeModifyStake
  dsimp only
  split
  · split
    · split
      · rw [andThen_frame (f := clearProposals) _ core fun _ => rfl, stackTx, stack_core]
        rfl
      · rfl
    · rfl
  · rfl

theorem arrayNetwork_of_core {n m : Node} (h : m.core = n.core) :
    m.arrayNetwork = n.arrayNetwork := congrArg Prod.snd h

theorem arrayNetwork_calcValidator {n : Node} {turn : Turn} :
    (n.calcValidator turn).arrayNetwork = n.arrayNetwork :=
  arrayNetwork_of_core (n.calcValidator_core turn)

theorem calcValidator_toConsensus : (n.calcValidator turn).toConsensus = n.toConsensus :=
  congrArg Prod.fst (n.calcValidator_core turn)

theorem processAddTx_toConsensus (origin : Text) (height : Nat) (tx : TransactionStruct) :
    (n.processAddTx crypto origin height tx).toConsensus = n.toConsensus :=
  congrArg Prod.fst (n.processAddTx_core origin height tx)

theorem doAddTx_toConsensus : (n.doAddTx crypto turn).toConsensus = n.toConsensus :=
  congrArg Prod.fst (n.doAddTx_core turn)

theorem stackTx_toConsensus (commands : List Command) (ident : Text) :
    (n.stackTx crypto turn commands ident).toConsensus = n.toConsensus :=
  congrArg Prod.fst (n.stack_core turn _ ident)

theorem proposeModifyStake_toConsensus (publicKey ident : Text) (stake : Int) :
    (n.proposeModifyStake crypto turn publicKey ident stake).toConsensus = n.toConsensus :=
  congrArg Prod.fst (n.proposeModifyStake_core turn publicKey ident stake)

theorem processStatus_moves (origin : Text) (kind height : Nat) :
    Move crypto n.toConsensus .other (n.processStatus crypto turn origin kind height).toConsensus := by
  unfold processStatus
  dsimp only
  split
  · split
    · rw [proposeModifyStake_toConsensus]
      exact .fetch _ height
    · exact .fetch _ height
  · exact .quiet _

/-- Whether sending throws or not, the consensus part has gone on. -/
theorem transmit_setupRetry_toConsensus (c : Consensus) :
    ((n.transmit c).andThen setupRetry).toConsensus = c :=
  andThen_toConsensus _ fun _ => rfl

/-! ## §3. The handlers that do. -/

/-- Accepting a candidate: hold it, and unless the node hangs then vote for it. -/
theorem processProposeBlock_moves (b : BlockStruct) :
    Move crypto n.toConsensus .other (n.processProposeBlock crypto turn b).toConsensus
      ∨ Move crypto n.toConsensus (.accept b) (n.processProposeBlock crypto turn b).toConsensus := by
  unfold processProposeBlock
  split
  next hacc =>
    right
    set m := ({ n with toConsensus := n.toConsensus.hold b } : Node).calcValidator turn with hm
    have hhold : m.toConsensus = n.toConsensus.hold b := calcValidator_toConsensus _ turn
    unfold andThen
    split
    · rw [hhold]
      exact .hold _ b hacc
    · show Move crypto _ _ ((m.transmit _).andThen setupRetry).toConsensus
      rw [transmit_setupRetry_toConsensus, hhold]
      exact .approve _ b turn.now m.validator hacc
  · exact Or.inl (.quiet _)

/-- The answer of the server decides what is left of the votes. -/
theorem settleVote_toConsensus {v : Blockchain.StakeVote}
    (h : (n.settleVote crypto turn v).halted = false) :
    ∃ answer : Bool, n.chain.settle answer v = some (n.settleVote crypto turn v).chain
      ∧ (n.settleVote crypto turn v).toConsensus
        = { n.toConsensus with chain := (n.settleVote crypto turn v).chain } := by
  cases v with
  | skip => exact ⟨true, rfl, rfl⟩
  | throws => exact nomatch h
  -- The proposal stacks a transaction; the consensus only sees the answer it got.
  | propose publicKey =>
      have hcore : (n.proposeModifyStake crypto turn publicKey STAKE_VOTE_IDENT
          STAKE_VOTE_AMOUNT).toConsensus = n.toConsensus :=
        n.proposeModifyStake_toConsensus turn publicKey STAKE_VOTE_IDENT STAKE_VOTE_AMOUNT
      refine ⟨n.proposeAnswer publicKey STAKE_VOTE_IDENT, ?_⟩
      unfold settleVote andThen at h ⊢
      dsimp only at h ⊢
      split at h
      next hhalt =>
        rw [hhalt] at h
        exact nomatch h
      next hrun =>
        rw [if_neg hrun, Blockchain.settle]
        split
        · unfold setChain
          rw [hcore]
          exact ⟨rfl, rfl⟩
        · rw [hcore]
          exact ⟨rfl, rfl⟩

/-- What `updateCache` of a node comes to, where it comes to an end. -/
theorem updateCache_toConsensus {b : BlockStruct}
    (h : (n.updateCache crypto turn b).halted = false) :
    ∃ answer chain, n.chain.updateCache answer b = some chain
      ∧ (n.updateCache crypto turn b).toConsensus = { n.toConsensus with chain := chain } := by
  obtain ⟨answer, hchain, hcore⟩ := settleVote_toConsensus _ turn h
  exact ⟨answer, _, hchain, hcore⟩

theorem finishAdd_moves {i : Nat} {t : AddTask} (ht : n.adds[i]? = some t)
    (hp : n.pending t = none) :
    Move crypto n.toConsensus .other (n.finishAdd crypto turn i t).toConsensus
      ∨ Move crypto n.toConsensus (.commit t) (n.finishAdd crypto turn i t).toConsensus := by
  unfold finishAdd
  dsimp only
  split
  · exact Or.inl (.quiet _)
  next hrun =>
    rw [Bool.not_eq_true] at hrun
    obtain ⟨answer, chain, hchain, hcore⟩ := updateCache_toConsensus n turn hrun
    have harm : ∀ m : Node, ({ m with timeoutAddTx := true } : Node).toConsensus = m.toConsensus :=
      fun _ => rfl
    rw [andThen_toConsensus _ harm, calcValidator_toConsensus]
    right
    show Move crypto _ _ (((n.updateCache crypto turn (n.objects t.obj)).toConsensus.finish i t
      (n.updateCache crypto turn (n.objects t.obj)).chain).drop)
    rw [hcore]
    exact .finish _ i t answer chain ht hp hchain

theorem processMessage_moves (m : Message) :
    ∃ kind : Kind, kind.from n turn (.message m)
      ∧ Move crypto n.toConsensus kind (n.processMessage crypto turn m).toConsensus := by
  have hcalc := n.calcValidator_toConsensus turn
  unfold processMessage
  cases hdata : m.data with
  | addTx height tx =>
      refine ⟨.other, trivial, ?_⟩
      rw [andThen_toConsensus _ fun k => by
        split
        · exact k.processAddTx_toConsensus _ _ _
        · rfl, hcalc]
      exact .quiet _
  -- A node that halts while it works out the validator does nothing more.
  | proposeBlock b =>
      dsimp only
      unfold andThen
      split
      · refine ⟨.other, trivial, ?_⟩
        rw [hcalc]
        exact .quiet _
      dsimp only
      split
      next hval =>
        -- The proposal is taken up or, if it is not acceptable, ignored.
        rcases (n.calcValidator turn).processProposeBlock_moves turn b with h | h
        · rw [hcalc] at h
          exact ⟨.other, trivial, h⟩
        · rw [hcalc] at h
          exact ⟨.accept b, ⟨m, rfl, hdata, hval⟩, h⟩
      · refine ⟨.other, trivial, ?_⟩
        rw [hcalc]
        exact .quiet _
  | signBlock hash sig =>
      dsimp only
      unfold andThen
      split
      · refine ⟨.other, trivial, ?_⟩
        rw [hcalc]
        exact .quiet _
      dsimp only
      split
      next hval =>
        rw [hcalc] at hval
        refine ⟨.vote m.origin hash sig, ⟨m, rfl, hdata, rfl, hval⟩, ?_⟩
        show Move crypto _ _ ((n.calcValidator turn).toConsensus.processSignBlock crypto turn.now
          m.origin hash sig)
        rw [hcalc]
        exact .vote _ _ _ _ _
      · refine ⟨.other, trivial, ?_⟩
        rw [hcalc]
        exact .quiet _
  | confirmBlock hash votes =>
      dsimp only
      unfold andThen
      split
      · refine ⟨.other, trivial, ?_⟩
        rw [hcalc]
        exact .quiet _
      dsimp only
      split
      next hval =>
        refine ⟨.confirm hash votes, ⟨m, rfl, hdata, hval⟩, ?_⟩
        show Move crypto _ _
          ((n.calcValidator turn).toConsensus.processConfirmBlock crypto hash votes)
        rw [hcalc]
        exact .confirm _ _ _
      · refine ⟨.other, trivial, ?_⟩
        rw [hcalc]
        exact .quiet _
  | status kind height => exact ⟨.other, trivial, n.processStatus_moves turn m.origin kind height⟩

/-- **Every turn of a node is one move of its consensus part.** -/
theorem step_moves (e : Event) :
    ∃ kind : Kind, kind.from n turn e
      ∧ Move crypto n.toConsensus kind (n.step crypto turn e).toConsensus := by
  unfold step andThen
  split
  · exact ⟨.other, trivial, .quiet _⟩
  show ∃ kind : Kind, kind.from n turn e ∧ Move crypto _ kind (n.react crypto turn e).toConsensus
  cases e with
  | stackTx commands ident =>
      refine ⟨.other, trivial, ?_⟩
      show Move crypto _ _ (n.stackTx crypto turn commands ident).toConsensus
      rw [stackTx_toConsensus]
      exact .quiet _
  | message m =>
      rw [react]
      split
      · exact n.processMessage_moves turn m
      · exact ⟨.other, trivial, .quiet _⟩
  | timeoutAddTx =>
      refine ⟨.other, trivial, ?_⟩
      rw [react]
      split
      · rw [doAddTx_toConsensus]
        exact .quiet _
      · exact .quiet _
  | timeoutProposeBlock =>
      rw [react]
      split
      next harmed => exact ⟨.propose n.arrayPoolTx, ⟨rfl, harmed, rfl⟩, .propose _ _ _⟩
      · exact ⟨.other, trivial, .quiet _⟩
  -- The retry drops the block under way.
  | timeoutRetry =>
      rw [react]
      split
      next harmed =>
        refine ⟨.drop, ⟨rfl, harmed⟩, ?_⟩
        rw [doAddTx_toConsensus]
        exact .drop _
      · exact ⟨.other, trivial, .quiet _⟩
  | timeoutStatus => exact ⟨.other, trivial, .quiet _⟩
  | resumeAdd i =>
      rw [react, resumeAdd]
      split
      · exact ⟨.other, trivial, .quiet _⟩
      next t ht =>
        split
        next oc hp => exact ⟨.command oc, ⟨i, t, rfl, ht, hp⟩, .runCommand _ i t oc ht hp⟩
        next hp =>
          -- A stake vote that throws halts the node before anything is committed.
          rcases n.finishAdd_moves turn ht hp with h | h
          · exact ⟨.other, trivial, h⟩
          · exact ⟨.commit t, ⟨i, rfl, ht, hp⟩, h⟩
  | syncAnswer blocks => exact ⟨.answer blocks, rfl, .answer _ blocks⟩
  | continueSync => exact ⟨.other, trivial, .continueSync _⟩
  | p2pNetwork =>
      refine ⟨.other, trivial, ?_⟩
      rw [react]
      split <;> exact .quiet _

end Node

end Divachain
