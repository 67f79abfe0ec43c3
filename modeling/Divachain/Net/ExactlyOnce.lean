/-
  Divachain.Net.ExactlyOnce — each height is applied once, if calls of `add`
  do not overlap.

  The invariant `Settled` has two phases.  With no call in flight the chain
  holds the blocks added so far; with one call in flight it holds what that
  call has applied up to its suspension.  One lemma for each operation; the
  operations that touch votes, candidates or signatures leave both phases
  alone.
-/
import Divachain.Net.Moves
import Divachain.Chain.Authorisation

namespace Divachain

open DataKit
open Blockchain (Validated)

namespace Consensus

/-! ## §1. The invariant. -/

/-- A call in flight over the blocks `bs`: the commands up to its position have
been applied, and the object still has the rest of them. -/
structure Applying (bs : List BlockStruct) (c : Consensus) (t : AddTask) : Prop where
  ledger : c.chain.toLedger
    = ((commandsOf t.stored.tx).take t.pos).foldl Ledger.apply (Ledger.fresh.applyBlocks bs)
  rest : (commandsOf (c.objects t.obj).tx).drop t.pos = (commandsOf t.stored.tx).drop t.pos
  height_eq : (c.objects t.obj).height = t.stored.height
  hash_eq : (c.objects t.obj).hash = t.stored.hash
  next : t.stored.height = c.chain.height + 1
  stored : c.chain.dbBlockchain.values = bs ++ [t.stored]
  keys_le : ∀ e ∈ c.chain.dbBlockchain.entries, e.1 ≤ t.stored.height
  allocated : t.obj < c.next

/-- What the chain holds, by the calls in flight. -/
def Phase (crypto : Crypto) (genesis : BlockStruct) (bs : List BlockStruct) (c : Consensus) :
    List AddTask → Prop
  | [] => c.chain.toLedger = Ledger.fresh.applyBlocks bs ∧ c.chain.dbBlockchain.values = bs
      ∧ ∀ e ∈ c.chain.dbBlockchain.entries, e.1 ≤ c.chain.height
  | [t] => Applying bs c t ∧ Validated crypto genesis (bs ++ [t.stored])
  | _ => False

/-- **The chain holds a validated sequence**: the blocks `base` it started
with and then the blocks committed. -/
structure Settled (crypto : Crypto) (genesis : BlockStruct) (base : List BlockStruct)
    (c : Consensus) : Prop where
  validated : Validated crypto genesis (base ++ c.committed)
  height : (base ++ c.committed).getLast?.map BlockStruct.height = some c.chain.height
  latest : c.chain.latestBlock.map BlockStruct.hash
    = (base ++ c.committed).getLast?.map BlockStruct.hash
  allocated : ∀ obj, c.block = some obj → obj < c.next
  phase : Phase crypto genesis (base ++ c.committed) c c.adds

variable {crypto : Crypto} {genesis : BlockStruct} {base : List BlockStruct} {c : Consensus}

theorem settled_start {chain : Blockchain} (hbs : Validated crypto genesis base)
    (h : Blockchain.Holds base chain) : Settled crypto genesis base (start chain) := by
  have hnil : base ++ (start chain).committed = base := List.append_nil base
  refine ⟨?_, ?_, ?_, fun _ h => (nomatch h), ?_⟩
  · rw [hnil]
    exact hbs
  · rw [hnil]
    exact h.height
  · rw [hnil]
    exact h.latest
  · rw [hnil]
    exact ⟨h.ledger, h.stored, h.keys_le⟩

/-! ## §2. Operations that leave the chain and the calls alone. -/

/-- A call in flight does not see a change that keeps its object's commands,
height and hash. -/
theorem Applying.congr {bs : List BlockStruct} {c' : Consensus} {t : AddTask}
    (h : Applying bs c t) (hchain : c'.chain = c.chain) (hnext : c.next ≤ c'.next)
    (htx : (c'.objects t.obj).tx = (c.objects t.obj).tx)
    (hheight : (c'.objects t.obj).height = (c.objects t.obj).height)
    (hhash : (c'.objects t.obj).hash = (c.objects t.obj).hash) : Applying bs c' t := by
  refine ⟨?_, ?_, ?_, ?_, ?_, ?_, ?_, Nat.lt_of_lt_of_le h.allocated hnext⟩
  · rw [hchain]
    exact h.ledger
  · rw [htx]
    exact h.rest
  · rw [hheight]
    exact h.height_eq
  · rw [hhash]
    exact h.hash_eq
  · rw [hchain]
    exact h.next
  · rw [hchain]
    exact h.stored
  · rw [hchain]
    exact h.keys_le

/-- The phase does not see a change that keeps the objects of the calls. -/
theorem Settled.congr {c' : Consensus} (h : Settled crypto genesis base c)
    (hchain : c'.chain = c.chain) (hadds : c'.adds = c.adds)
    (hcommitted : c'.committed = c.committed) (hnext : c.next ≤ c'.next)
    (hblock : ∀ obj, c'.block = some obj → obj < c'.next)
    (hobjects : ∀ obj < c.next, (c'.objects obj).tx = (c.objects obj).tx
      ∧ (c'.objects obj).height = (c.objects obj).height
      ∧ (c'.objects obj).hash = (c.objects obj).hash) : Settled crypto genesis base c' := by
  refine ⟨?_, ?_, ?_, hblock, ?_⟩
  · rw [hcommitted]
    exact h.validated
  · rw [hcommitted, hchain]
    exact h.height
  · rw [hcommitted, hchain]
    exact h.latest
  · have hphase := h.phase
    rw [hcommitted, hadds]
    -- Either no task is open and the ledger is that of the chain, or one is.
    cases hc : c.adds with
    | nil =>
        rw [hc] at hphase
        show _ ∧ _ ∧ _
        rw [hchain]
        exact hphase
    | cons t l =>
        rw [hc] at hphase
        cases l with
        | nil =>
            obtain ⟨happly, hvalid⟩ := hphase
            obtain ⟨htx, hheight, hhash⟩ := hobjects t.obj happly.allocated
            exact ⟨happly.congr hchain hnext htx hheight hhash, hvalid⟩
        | cons t' l => exact hphase.elim

theorem Settled.alloc (h : Settled crypto genesis base c) (b : BlockStruct) :
    Settled crypto genesis base (c.alloc b) := by
  refine h.congr rfl rfl rfl (Nat.le_succ _) ?_ ?_
  · intro obj hobj
    exact Nat.lt_succ_of_lt (h.allocated obj hobj)
  · intro obj hobj
    have hne : obj ≠ c.next := Nat.ne_of_lt hobj
    rw [objects_alloc_of_ne hne]
    exact ⟨rfl, rfl, rfl⟩

theorem Settled.hold (h : Settled crypto genesis base c) (b : BlockStruct) :
    Settled crypto genesis base (c.hold b) := by
  refine (h.alloc b).congr rfl rfl rfl (Nat.le_refl _) ?_ fun _ _ => ⟨rfl, rfl, rfl⟩
  intro obj hobj
  obtain rfl : c.next = obj := Option.some.inj hobj
  exact Nat.lt_succ_self _

theorem Settled.sign (h : Settled crypto genesis base c) (hash : Text) :
    Settled crypto genesis base (c.sign hash) :=
  h.congr rfl rfl rfl (Nat.le_refl _) h.allocated fun _ _ => ⟨rfl, rfl, rfl⟩

theorem Settled.send (h : Settled crypto genesis base c) (m : Message) :
    Settled crypto genesis base (c.send m) :=
  h.congr rfl rfl rfl (Nat.le_refl _) h.allocated fun _ _ => ⟨rfl, rfl, rfl⟩

/-- The state of the sync loop does not matter. -/
theorem Settled.setSync (h : Settled crypto genesis base c) (sync : SyncState) :
    Settled crypto genesis base { c with sync := sync } :=
  h.congr rfl rfl rfl (Nat.le_refl _) h.allocated fun _ _ => ⟨rfl, rfl, rfl⟩

theorem Settled.drop (h : Settled crypto genesis base c) :
    Settled crypto genesis base c.drop :=
  h.congr rfl rfl rfl (Nat.le_refl _) (fun _ h => nomatch h) fun _ _ => ⟨rfl, rfl, rfl⟩

/-- Writing votes to an object. -/
theorem Settled.writeVotes (h : Settled crypto genesis base c) (obj : Nat)
    (votes : List VoteStruct) :
    Settled crypto genesis base (c.write obj { c.objects obj with votes := votes }) := by
  refine h.congr rfl rfl rfl (Nat.le_refl _) h.allocated ?_
  intro obj' _
  by_cases heq : obj' = obj
  · subst heq
    rw [objects_write_self]
    exact ⟨rfl, rfl, rfl⟩
  · rw [objects_write_of_ne heq]
    exact ⟨rfl, rfl, rfl⟩

theorem Settled.pushVote (h : Settled crypto genesis base c) (obj : Nat) (v : VoteStruct) :
    Settled crypto genesis base (c.pushVote obj v) :=
  h.writeVotes obj _

/-! ## §3. A call starts, goes on and returns. -/

/-- **A call that passes its guard** while none is in flight. -/
theorem Settled.startAdd (h : Settled crypto genesis base c) {obj : Nat} (fromSync : Bool)
    (hobj : obj < c.next) (hone : (c.startAdd crypto obj fromSync).adds.length ≤ 1) :
    Settled crypto genesis base (c.startAdd crypto obj fromSync) := by
  rcases c.startAdd_cases crypto obj fromSync with ⟨haccepts, hstep⟩ | ⟨-, hstep⟩
  · rw [hstep] at hone ⊢
    have hnone : c.adds = [] := adds_eq_nil hone
    have hphase := h.phase
    rw [hnone] at hphase
    obtain ⟨hledger, hvalues, hkeys⟩ := hphase
    have hnext := ((Blockchain.accepts_iff crypto).mp haccepts).1
    refine ⟨h.validated, h.height, h.latest, h.allocated, ?_⟩
    show Phase crypto genesis _ _ (c.adds ++ [_])
    rw [hnone]
    refine ⟨⟨hledger, rfl, rfl, rfl, hnext.symm, ?_, ?_, hobj⟩, ?_⟩
    -- The block is stored before its commands run, so the store is one block ahead.
    · show (c.chain.dbBlockchain.put _ _).values = _
      rw [Blockchain.values_put_above hkeys hnext, hvalues]
    · intro e he
      rcases Store.mem_entries_put he with rfl | he
      · exact Nat.le_refl _
      · have := hkeys e he
        show e.1 ≤ (c.objects obj).height
        omega
    · exact h.validated.accepted hledger h.height h.latest haccepts
  · rw [hstep]
    exact h

/-- The call in flight, where there is at most one. -/
theorem Settled.task (h : Settled crypto genesis base c) {i : Nat} {t : AddTask}
    (ht : c.adds[i]? = some t) :
    i = 0 ∧ c.adds = [t] ∧ Applying (base ++ c.committed) c t
      ∧ Validated crypto genesis (base ++ c.committed ++ [t.stored]) := by
  have hphase := h.phase
  cases hc : c.adds with
  | nil =>
      rw [hc] at ht
      exact nomatch ht
  | cons t' l =>
      cases l with
      | nil =>
          rw [hc] at ht hphase
          cases i with
          | zero =>
              obtain rfl : t' = t := Option.some.inj ht
              exact ⟨rfl, rfl, hphase⟩
          | succ i => exact nomatch ht
      | cons t'' l =>
          rw [hc] at hphase
          exact hphase.elim

/-- **The call applies its next command.** -/
theorem Settled.runCommand (h : Settled crypto genesis base c) {i : Nat} {t : AddTask}
    {oc : Text × Command} (ht : c.adds[i]? = some t) (hp : c.pending t = some oc) :
    Settled crypto genesis base (c.runCommand i t oc) := by
  obtain ⟨rfl, hadds, happly, hvalid⟩ := h.task ht
  -- the object and the stored text agree from the position on
  have hnext : (commandsOf t.stored.tx)[t.pos]? = some oc := by
    rw [← hp, pending, ← List.head?_drop, ← List.head?_drop, happly.rest]
  have hobject : (c.runCommand 0 t oc).objects t.obj
      = { c.objects t.obj with
          tx := setCommandOf (c.objects t.obj).tx t.pos
            (c.chain.toLedger.processCommand oc.1 oc.2).2 } := Function.update_self _ _ _
  refine ⟨h.validated, h.height, h.latest, h.allocated, ?_⟩
  show Phase crypto genesis _ _ (c.adds.set 0 _)
  rw [hadds]
  refine ⟨⟨?_, ?_, ?_, ?_, happly.next, happly.stored, happly.keys_le, happly.allocated⟩, hvalid⟩
  · show (c.chain.toLedger.processCommand oc.1 oc.2).1
      = ((commandsOf t.stored.tx).take (t.pos + 1)).foldl Ledger.apply
          (Ledger.fresh.applyBlocks (base ++ c.committed))
    rw [List.take_add_one, hnext, List.foldl_append, ← happly.ledger]
    rfl
  · show (commandsOf ((c.runCommand 0 t oc).objects t.obj).tx).drop (t.pos + 1) = _
    rw [hobject, drop_commandsOf_setCommandOf, ← List.drop_drop, happly.rest, List.drop_drop]
  · show ((c.runCommand 0 t oc).objects t.obj).height = _
    rw [hobject]
    exact happly.height_eq
  · show ((c.runCommand 0 t oc).objects t.obj).hash = _
    rw [hobject]
    exact happly.hash_eq

/-- **The call returns**: its block has been applied once, as a whole. -/
theorem Settled.finish (h : Settled crypto genesis base c) {i : Nat} {t : AddTask}
    {answer : Bool} {chain : Blockchain} (ht : c.adds[i]? = some t) (hp : c.pending t = none)
    (hc : c.chain.updateCache answer (c.objects t.obj) = some chain) :
    Settled crypto genesis base (c.finish i t chain) := by
  obtain ⟨rfl, hadds, happly, hvalid⟩ := h.task ht
  have hspec := Blockchain.updateCache_spec hc
  have hdone : (commandsOf t.stored.tx).drop t.pos = [] := by
    rw [← happly.rest]
    exact List.drop_eq_nil_of_le (List.getElem?_eq_none_iff.mp hp)
  -- No command is left, so the position stands at the end of the stored block.
  have hall : (commandsOf t.stored.tx).take t.pos = commandsOf t.stored.tx := by
    have hsplit := List.take_append_drop t.pos (commandsOf t.stored.tx)
    rwa [hdone, List.append_nil] at hsplit
  have hbs : base ++ (c.finish 0 t chain).committed = base ++ c.committed ++ [t.stored] :=
    (List.append_assoc _ _ _).symm
  refine ⟨?_, ?_, ?_, fun _ h => (nomatch h), ?_⟩
  · rw [hbs]
    exact hvalid
  · rw [hbs, List.getLast?_concat]
    show some t.stored.height = some chain.height
    rw [hspec.height, happly.height_eq]
  · rw [hbs, List.getLast?_concat]
    show chain.latestBlock.map BlockStruct.hash = some t.stored.hash
    rw [hspec.latestBlock, Option.map_some, happly.hash_eq]
  · rw [hbs]
    -- With the task gone the ledger is that of the chain with the block on top.
    show Phase crypto genesis _ _ (c.adds.eraseIdx 0)
    rw [hadds]
    refine ⟨?_, ?_, ?_⟩
    · show chain.toLedger = _
      rw [hspec.ledger, happly.ledger, hall,
        Ledger.applyBlocks_append _ (base ++ c.committed) [t.stored]]
      rfl
    · show chain.dbBlockchain.values = _
      rw [hspec.dbBlockchain]
      exact happly.stored
    · show ∀ e ∈ chain.dbBlockchain.entries, e.1 ≤ chain.height
      rw [hspec.dbBlockchain, hspec.height, happly.height_eq]
      exact happly.keys_le

/-! ## §4. Moves. -/

theorem Settled.processSignBlock (h : Settled crypto genesis base c) {now : Nat}
    {origin hash sig : Text}
    (hone : (c.processSignBlock crypto now origin hash sig).adds.length ≤ 1) :
    Settled crypto genesis base (c.processSignBlock crypto now origin hash sig) := by
  rcases c.processSignBlock_cases crypto now origin hash sig with
    ⟨-, hstep⟩ | ⟨obj, hobj, ⟨-, hstep⟩ | ⟨-, hstep⟩⟩
  · rw [hstep]
    exact h
  · rw [hstep]
    exact h.pushVote obj _
  · have halloc : obj < c.next := h.allocated obj (block_of_votable hobj).1
    rw [hstep] at hone ⊢
    exact ((h.pushVote obj _).startAdd false halloc hone).send _

theorem Settled.approve (h : Settled crypto genesis base c) {now : Nat} {validator hash : Text}
    (hone : (c.approve crypto now validator hash).adds.length ≤ 1) :
    Settled crypto genesis base (c.approve crypto now validator hash) := by
  rcases c.approve_cases crypto now validator hash with ⟨-, hstep⟩ | ⟨-, hstep⟩
  · rw [hstep] at hone ⊢
    exact (h.sign hash).processSignBlock hone
  · rw [hstep]
    exact (h.sign hash).send _

theorem Settled.processConfirmBlock (h : Settled crypto genesis base c) {hash : Text}
    {votes : List VoteStruct} (hone : (c.processConfirmBlock crypto hash votes).adds.length ≤ 1) :
    Settled crypto genesis base (c.processConfirmBlock crypto hash votes) := by
  rcases c.processConfirmBlock_cases crypto hash votes with hstep | ⟨obj, hblock, -, -, hstep⟩
  · rw [hstep]
    exact h
  · rw [hstep] at hone ⊢
    exact (h.writeVotes obj votes).startAdd false (h.allocated obj hblock) hone

theorem Settled.continueSync (h : Settled crypto genesis base c)
    (hone : (c.continueSync crypto).adds.length ≤ 1) :
    Settled crypto genesis base (c.continueSync crypto) := by
  rcases c.continueSync_cases crypto with hstep | ⟨sync, -, hstep⟩ | ⟨b, blocks, -, -, hstep⟩
  · rw [hstep]
    exact h
  · rw [hstep]
    exact h.setSync sync
  · rw [hstep] at hone ⊢
    exact ((h.alloc b).startAdd true (Nat.lt_succ_self _) hone).setSync _

/-- **Every move keeps the chain settled**, unless it starts a second call. -/
theorem Settled.move {kind : Kind} {c' : Consensus} (h : Settled crypto genesis base c)
    (hmove : Move crypto c kind c') (hone : c'.adds.length ≤ 1) :
    Settled crypto genesis base c' := by
  cases hmove with
  | quiet => exact h
  -- Proposing holds a new block, signs and sends it; no task is started.
  | propose now pool => exact ((h.hold _).sign _).send _
  | hold b hacc => exact h.hold b
  | approve b now validator hacc => exact (h.hold b).approve hone
  | vote now origin hash sig => exact h.processSignBlock hone
  | confirm hash votes => exact h.processConfirmBlock hone
  | fetch height =>
      rcases c.fetchSync_cases height with hstep | hstep
      · rw [hstep]
        exact h
      · rw [hstep]
        exact h.setSync _
  | answer blocks =>
      rcases c.answerSync_cases blocks with hstep | hstep
      · rw [hstep]
        exact h
      · rw [hstep]
        exact h.setSync _
  | continueSync => exact h.continueSync hone
  | drop => exact h.drop
  | runCommand i t oc ht hp => exact h.runCommand ht hp
  | finish i t answer chain ht hp hc => exact h.finish ht hp hc

end Consensus

namespace Node

/-! ## §5. Runs. -/

theorem Reaches.settled {crypto : Crypto} {genesis : BlockStruct} {chain : Blockchain}
    {base : List BlockStruct} {n : Node} (hbs : Validated crypto genesis base)
    (hchain : Blockchain.Holds base chain)
    (h : Reaches crypto (Sequential crypto) (start chain) n) :
    Consensus.Settled crypto genesis base n.toConsensus := by
  induction h with
  | refl => exact Consensus.settled_start hbs hchain
  | @step n _ turn e hok ih =>
      obtain ⟨kind, -, hmove⟩ := n.step_moves turn e
      exact ih.move hmove hok

/-- **Exactly-once application.**  In every run without overlapping calls of
`add`, whenever none is in flight the chain holds one validated sequence of
blocks: the blocks the node started with, and each committed block once. -/
theorem applied_exactly_once {crypto : Crypto} {publicKey : Text} {genesis : BlockStruct}
    {chain : Blockchain} {n : Node} (hg : 1 ≤ genesis.height)
    (hchain : Blockchain.Runs crypto publicKey genesis chain)
    (h : Reaches crypto (Sequential crypto) (start chain) n) (hidle : n.adds = []) :
    ∃ bs, bs = chain.chain ++ n.committed ∧ Validated crypto genesis bs
      ∧ Blockchain.Holds bs n.chain := by
  obtain ⟨hbs, hholds⟩ := hchain.holds hg
  have hsettled := h.settled hbs hholds
  have hphase := hsettled.phase
  rw [hidle] at hphase
  exact ⟨_, rfl, hsettled.validated,
    ⟨hphase.1, hphase.2.1, hphase.2.2, hsettled.height, hsettled.latest⟩⟩

/-! ## §6. Two confirmations of one block. -/

open Blockchain (sampleStart sampleGenesis start_sampleStart proposalBlock proposalCrypto)

/-- A turn in which everybody is online. -/
def allOnline : Turn :=
  { isOnline := fun _ => true, countOnline := 3, nanoid := ['n'], now := 1, pingVote := false,
    caught := false }

/-- A message of peer `i` to everybody. -/
def messageOf (i : Nat) (data : MessageData) : Message :=
  { seq := 1, origin := keyOf i, dest := [], data := data }

/-- The votes peers 1 and 0 cast for the block of two stake proposals. -/
def proposalVotes : List VoteStruct :=
  [{ origin := keyOf 1, sig := label 86 3 }, { origin := keyOf 0, sig := label 86 0 }]

/-- Peer 0 accepts the candidate of peer 1, and a confirmation starts `add`. -/
def confirmedOnce : List (Turn × Event) :=
  [(allOnline, .p2pNetwork),
    (allOnline, .message (messageOf 1 (.proposeBlock
      { proposalBlock ['a'] 12 with votes := proposalVotes.take 1 }))),
    (allOnline, .message (messageOf 1 (.confirmBlock (label 43 1) proposalVotes)))]

/-- The call is resumed until it returns. -/
def appliedOnce : Node :=
  (start (sampleStart 0)).run (proposalCrypto ['a'] 12)
    (confirmedOnce ++ List.replicate 3 (allOnline, .resumeAdd 0))

/-- A second confirmation comes in before that. -/
def appliedTwice : Node :=
  (start (sampleStart 0)).run (proposalCrypto ['a'] 12)
    (confirmedOnce ++ [(allOnline, .message (messageOf 1 (.confirmBlock (label 43 1) proposalVotes)))]
      ++ List.replicate 6 (allOnline, .resumeAdd 0))

theorem applied_exactly_once_of_sample :
    ∃ bs, bs = (sampleStart 0).chain ++ appliedOnce.committed
      ∧ Validated (proposalCrypto ['a'] 12) sampleGenesis bs
      ∧ Blockchain.Holds bs appliedOnce.chain :=
  applied_exactly_once (by decide) (.start start_sampleStart)
    (Reaches.refl.run _ (by decide +kernel)) (by decide +kernel)

/-- **Two confirmations**: the second call counts the votes again, and they
stay in the tally of a change that has taken effect. -/
theorem applied_twice :
    ¬ ∀ n, Reaches (proposalCrypto ['a'] 12) AnyTurn (start (sampleStart 0)) n → n.adds = [] →
      ∃ bs, Validated (proposalCrypto ['a'] 12) sampleGenesis bs
        ∧ Blockchain.Holds bs n.chain := by
  intro hclaim
  obtain ⟨bs, -, hholds⟩ := hclaim appliedTwice
    (Reaches.refl.run _ (allowed_anyTurn _ _ _)) (by decide +kernel)
  have hledger := hholds.ledger
  rw [← hholds.stored] at hledger
  have htally : appliedTwice.chain.mapModifyStake.size
      ≠ (Ledger.fresh.applyBlocks appliedTwice.chain.dbBlockchain.values).mapModifyStake.size := by
    decide +kernel
  exact htally (congrArg (fun l => l.mapModifyStake.size) hledger)

end Node

end Divachain
