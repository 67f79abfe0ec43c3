/-
  Divachain.Net.Retry — the timer that ends a round without a quorum.

  A candidate and a transaction in flight are given up when the retry timer
  fires.  It is armed wherever a transaction is sent off and wherever the
  candidate of another validator is accepted, but the proposal timer makes a
  candidate without arming it: a validator that pools transactions of others
  only has a candidate nothing ever clears.  And `doAddTx` arms it at its end
  only: where the broadcast before throws and the caller catches, a transaction
  is in flight without a retry.

  `Guarded` says that what is pending has a retry; `Kept` is what every handler
  but the proposal timer and the end of `add` does to it.

  Main result:
    * `retry_guards_iff` — when the retry timer is armed for all that is pending.
-/
import Divachain.Net.Validator

namespace Divachain

open DataKit

namespace Node

variable {crypto : Crypto} {n : Node}

/-! ## §1. What is pending. -/

/-- There is a candidate, or a transaction is in flight. -/
def Pending (n : Node) : Prop := n.block ≠ none ∨ n.ownTx ≠ none

/-- With no call of `add` in flight, what is pending has a retry. -/
def Guarded (n : Node) : Prop := n.adds = [] → n.Pending → n.timeoutRetry = true

/-- The same between two turns, by what the node itself can see. -/
def RetryArmed (n : Node) : Prop :=
  n.halted = false → n.adds = [] → (n.hasBlock = true ∨ n.ownTx ≠ none) → n.timeoutRetry = true

/-- A call of `stackTx` takes a transaction off the stack and throws before the
retry is armed, and its caller catches that. -/
def ThrowsCaught (crypto : Crypto) (n : Node) (turn : Turn) (e : Event) : Prop :=
  ∃ commands ident, e = .stackTx commands ident
    ∧ SendsOff crypto n turn (numbered commands) ident ∧ ¬ n.Deliverable turn
    ∧ n.hangs turn = false ∧ turn.caught = true

/-- The turn leaves something pending without arming the retry: it is such a
call, or a proposal timer whose broadcast returns. -/
def Unarmed (crypto : Crypto) (n : Node) (turn : Turn) (e : Event) : Prop :=
  (e = .timeoutProposeBlock ∧ n.timeoutProposeBlock = true ∧ n.canBroadcast = true)
    ∨ ThrowsCaught crypto n turn e

/-- Where a turn does not arm the retry, it finds it armed, or a block on its way
into the chain. -/
def FindsGuarded (crypto : Crypto) (n : Node) (turn : Turn) (e : Event) : Prop :=
  n.halted = false → Unarmed crypto n turn e → n.adds ≠ [] ∨ n.timeoutRetry = true

theorem block_of_hasBlock (h : n.hasBlock = true) : n.block ≠ none := by
  intro hnone
  unfold Consensus.hasBlock Consensus.held at h
  rw [hnone] at h
  exact nomatch h

theorem Guarded.retryArmed (h : n.Guarded) : n.RetryArmed := by
  intro _ hadds hpending
  refine h hadds ?_
  rcases hpending with hblock | htx
  · exact Or.inl (block_of_hasBlock hblock)
  · exact Or.inr htx

/-- **What a handler keeps**: nothing becomes pending without a retry, no retry
is taken back, and no call of `add` disappears. -/
structure Kept (n m : Node) : Prop where
  retry : n.timeoutRetry = true → m.timeoutRetry = true
  pending : m.Pending → n.Pending ∨ m.timeoutRetry = true
  adds : m.adds = [] → n.adds = []

namespace Kept

theorem refl (n : Node) : Kept n n := ⟨id, Or.inl, id⟩

theorem trans {m k : Node} (h : Kept n m) (h' : Kept m k) : Kept n k := by
  refine ⟨fun hretry => h'.retry (h.retry hretry), ?_, fun hadds => h.adds (h'.adds hadds)⟩
  intro hpending
  rcases h'.pending hpending with hm | hretry
  · rcases h.pending hm with hn | hretry
    · exact Or.inl hn
    · exact Or.inr (h'.retry hretry)
  · exact Or.inr hretry

theorem guarded {m : Node} (h : Kept n m) (hn : n.Guarded) : m.Guarded := by
  intro hadds hpending
  rcases h.pending hpending with hold | hretry
  · exact h.retry (hn (h.adds hadds) hold)
  · exact hretry

/-- A change that leaves the candidate, the transaction in flight and the timer alone. -/
theorem of_same {m : Node} (hblock : m.block = n.block) (hown : m.ownTx = n.ownTx)
    (hretry : m.timeoutRetry = n.timeoutRetry) (hadds : m.adds = [] → n.adds = []) : Kept n m := by
  refine ⟨fun h => hretry.trans h, ?_, hadds⟩
  intro hpending
  left
  unfold Pending at hpending ⊢
  rw [hblock, hown] at hpending
  exact hpending

/-- A change after which the timer is armed. -/
theorem of_armed {m : Node} (hretry : m.timeoutRetry = true) (hadds : m.adds = [] → n.adds = []) :
    Kept n m :=
  ⟨fun _ => hretry, fun _ => Or.inr hretry, hadds⟩

end Kept

/-! ## §2. The calls in flight. -/

theorem adds_startAdd {c : Consensus} {obj : Nat} {fromSync : Bool}
    (h : (c.startAdd crypto obj fromSync).adds = []) : c.adds = [] := by
  rcases c.startAdd_cases crypto obj fromSync with ⟨-, hstep⟩ | ⟨-, hstep⟩
  · rw [hstep] at h
    exact absurd h (List.concat_ne_nil _ _)
  · rw [hstep] at h
    exact h

theorem block_startAdd (c : Consensus) (obj : Nat) (fromSync : Bool) :
    (c.startAdd crypto obj fromSync).block = c.block := by
  rcases c.startAdd_cases crypto obj fromSync with ⟨-, hstep⟩ | ⟨-, hstep⟩
  · rw [hstep]
  · rw [hstep]

theorem adds_processSignBlock {c : Consensus} {now : Nat} {origin hash sig : Text}
    (h : (c.processSignBlock crypto now origin hash sig).adds = []) : c.adds = [] := by
  rcases c.processSignBlock_cases crypto now origin hash sig with
    ⟨-, hstep⟩ | ⟨obj, -, ⟨-, hstep⟩ | ⟨-, hstep⟩⟩
  · rw [hstep] at h
    exact h
  · rw [hstep] at h
    exact h
  · rw [hstep] at h
    exact adds_startAdd (c := c.pushVote _ _) h

theorem block_processSignBlock (c : Consensus) (now : Nat) (origin hash sig : Text) :
    (c.processSignBlock crypto now origin hash sig).block = c.block := by
  rcases c.processSignBlock_cases crypto now origin hash sig with
    ⟨-, hstep⟩ | ⟨obj, -, ⟨-, hstep⟩ | ⟨-, hstep⟩⟩
  · rw [hstep]
  · rw [hstep]
    rfl
  · rw [hstep]
    exact block_startAdd (c.pushVote _ _) _ _

theorem adds_approve {c : Consensus} {now : Nat} {validator hash : Text}
    (h : (c.approve crypto now validator hash).adds = []) : c.adds = [] := by
  rcases c.approve_cases crypto now validator hash with ⟨-, hstep⟩ | ⟨-, hstep⟩
  · rw [hstep] at h
    exact adds_processSignBlock (c := c.sign hash) h
  · rw [hstep] at h
    exact h

theorem kept_processConfirmBlock (n : Node) (hash : Text) (votes : List VoteStruct) :
    Kept n { n with toConsensus := n.toConsensus.processConfirmBlock crypto hash votes } := by
  rcases n.toConsensus.processConfirmBlock_cases crypto hash votes with
    hstep | ⟨obj, -, -, -, hstep⟩
  · rw [hstep]
    exact .of_same rfl rfl rfl id
  · rw [hstep]
    exact .of_same (block_startAdd (n.toConsensus.write obj _) _ _) rfl rfl adds_startAdd

theorem kept_continueSync (n : Node) :
    Kept n { n with toConsensus := n.toConsensus.continueSync crypto } := by
  rcases n.toConsensus.continueSync_cases crypto with
    hstep | ⟨sync, -, hstep⟩ | ⟨b, blocks, -, -, hstep⟩
  · rw [hstep]
    exact .of_same rfl rfl rfl id
  · rw [hstep]
    exact .of_same rfl rfl rfl id
  · rw [hstep]
    exact .of_same (block_startAdd (n.toConsensus.alloc b) _ _) rfl rfl
      fun h => adds_startAdd (c := n.toConsensus.alloc b) h

/-! ## §3. The handlers. -/

variable (turn : Turn)

/-- Nothing is left to do after a node has halted. -/
theorem andThen_running {f : Node → Node} (h : (n.andThen f).halted = false) :
    n.halted = false ∧ n.andThen f = f n := by
  unfold andThen at h ⊢
  split
  next hhalt =>
    rw [if_pos hhalt, hhalt] at h
    exact nomatch h
  next hrun =>
    rw [Bool.not_eq_true] at hrun
    exact ⟨hrun, rfl⟩

/-- What comes after a handler that has not halted. -/
theorem Kept.andThen {m : Node} {f : Node → Node} (h : Kept n m)
    (hrun : (m.andThen f).halted = false) (hf : (f m).halted = false → Kept m (f m)) : Kept n (m.andThen f) := by
  obtain ⟨-, hthen⟩ := andThen_running hrun
  rw [hthen] at hrun ⊢
  exact h.trans (hf hrun)

theorem kept_calcValidator (n : Node) : Kept n (n.calcValidator turn) := by
  unfold calcValidator
  split
  · exact .of_same rfl rfl rfl id
  · exact .of_same rfl rfl rfl id

theorem kept_processAddTx (n : Node) (origin : Text) (height : Nat) (tx : TransactionStruct) :
    Kept n (n.processAddTx crypto origin height tx) := by
  unfold processAddTx
  split
  · exact .of_same rfl rfl rfl id
  · exact .refl n

/-- Whoever has sent a transaction off has armed the retry. -/
theorem retry_submit (n : Node) (height : Nat) (tx : TransactionStruct)
    (h : (n.submit crypto turn height tx).halted = false) :
    (n.submit crypto turn height tx).timeoutRetry = true := by
  unfold submit at h ⊢
  split
  · rfl
  next hother =>
    rw [if_neg hother] at h
    obtain ⟨-, hthen⟩ := andThen_running h
    rw [hthen]
    rfl

theorem kept_doAddTx (n : Node) (h : (n.doAddTx crypto turn).halted = false) :
    Kept n (n.doAddTx crypto turn) := by
  have hadds : (n.doAddTx crypto turn).adds = n.adds :=
    congrArg Consensus.adds (n.doAddTx_toConsensus turn)
  unfold doAddTx at h hadds ⊢
  split
  next r rest hown hstack =>
    rw [hown, hstack] at h hadds
    dsimp only at h hadds ⊢
    obtain ⟨-, hsubmit⟩ := andThen_running h
    rw [hsubmit] at h hadds ⊢
    exact .of_armed (retry_submit turn _ _ _ h) fun h => hadds.symm.trans h
  · exact .refl n

theorem kept_stack (n : Node) (commands : List Command) (ident : Text)
    (h : (n.stack crypto turn commands ident).halted = false) :
    Kept n (n.stack crypto turn commands ident) := by
  unfold stack at h ⊢
  dsimp only at h ⊢
  split
  next hvalid =>
    rw [if_pos hvalid] at h
    have hpush : Kept n { n with
        stackTransaction := n.stackTransaction ++ [⟨identOf turn ident, commands⟩]
        accepted := n.accepted ++ [⟨identOf turn ident, commands⟩] } := .of_same rfl rfl rfl id
    exact hpush.trans (kept_doAddTx turn _ h)
  · exact .refl n

theorem kept_proposeModifyStake (n : Node) (publicKey ident : Text) (stake : Int)
    (h : (n.proposeModifyStake crypto turn publicKey ident stake).halted = false) :
    Kept n (n.proposeModifyStake crypto turn publicKey ident stake) := by
  unfold proposeModifyStake at h ⊢
  dsimp only at h ⊢
  split
  next hanswer =>
    rw [if_pos hanswer] at h
    split
    next hcredit =>
      rw [if_pos hcredit] at h
      split
      next hfull =>
        rw [if_pos hfull] at h
        obtain ⟨hrun, hthen⟩ := andThen_running h
        rw [hthen]
        have hqueue : Kept n (n.queueProposal publicKey
            ((n.mapStakeCredit.get? publicKey).getD 0 - 1) (stakeCommand publicKey ident stake)) :=
          .of_same rfl rfl rfl id
        exact (hqueue.trans (kept_stack turn _ _ _ hrun)).trans (.of_same rfl rfl rfl id)
      · exact .of_same rfl rfl rfl id
    · exact .refl n
  · exact .refl n

theorem kept_processStatus (n : Node) (origin : Text) (kind height : Nat)
    (h : (n.processStatus crypto turn origin kind height).halted = false) :
    Kept n (n.processStatus crypto turn origin kind height) := by
  have hfetch : Kept n { n with toConsensus := n.toConsensus.fetchSync height } := by
    rcases n.toConsensus.fetchSync_cases height with hstep | hstep
    · rw [hstep]
      exact .of_same rfl rfl rfl id
    · rw [hstep]
      exact .of_same rfl rfl rfl id
  unfold processStatus at h ⊢
  dsimp only at h ⊢
  split
  next honline =>
    rw [if_pos honline] at h
    split
    next hping =>
      rw [if_pos hping] at h
      exact hfetch.trans (kept_proposeModifyStake turn _ _ _ _ h)
    · exact hfetch
  · exact .refl n

/-- Whoever accepts a candidate arms the retry. -/
theorem kept_processProposeBlock (n : Node) (b : BlockStruct)
    (h : (n.processProposeBlock crypto turn b).halted = false) :
    Kept n (n.processProposeBlock crypto turn b) := by
  unfold processProposeBlock at h ⊢
  split
  next hacc =>
    rw [if_pos hacc] at h
    obtain ⟨-, hthen⟩ := andThen_running h
    rw [hthen] at h ⊢
    obtain ⟨-, hretry⟩ := andThen_running h
    rw [hretry]
    refine .of_armed rfl ?_
    intro hadds
    have hcalc := adds_approve hadds
    rw [calcValidator_toConsensus] at hcalc
    exact hcalc
  · exact .refl n

theorem kept_processMessage (n : Node) (m : Message)
    (h : (n.processMessage crypto turn m).halted = false) :
    Kept n (n.processMessage crypto turn m) := by
  have hcalc := kept_calcValidator turn n
  unfold processMessage at h ⊢
  cases hdata : m.data with
  | addTx height tx =>
    rw [hdata] at h
    refine hcalc.andThen h fun _ => ?_
    split
    · exact kept_processAddTx _ _ _ _
    · exact .refl _
  | proposeBlock b =>
    rw [hdata] at h
    refine hcalc.andThen h fun hthen => ?_
    split
    next hval =>
      rw [if_pos hval] at hthen
      exact kept_processProposeBlock turn _ b hthen
    · exact .refl _
  | signBlock hash sig =>
    rw [hdata] at h
    refine hcalc.andThen h fun _ => ?_
    split
    · exact .of_same (block_processSignBlock _ _ _ _ _) rfl rfl adds_processSignBlock
    · exact .refl _
  | confirmBlock hash votes =>
    rw [hdata] at h
    refine hcalc.andThen h fun _ => ?_
    split
    · exact kept_processConfirmBlock _ _ _
    · exact .refl _
  | status kind height =>
    rw [hdata] at h
    exact kept_processStatus turn n m.origin kind height h

/-- `clear` leaves nothing pending. -/
theorem not_pending_clear (n : Node) (b : Option BlockStruct) : ¬ (n.clear b).Pending := by
  intro hpending
  rcases hpending with hblock | htx
  · exact hblock rfl
  · exact htx rfl

/-- A block that has been added clears the round. -/
theorem guarded_finishAdd (n : Node) (i : Nat) (t : AddTask)
    (h : (n.finishAdd crypto turn i t).halted = false) :
    (n.finishAdd crypto turn i t).Guarded := by
  unfold finishAdd at h ⊢
  dsimp only at h ⊢
  split
  next hhalt =>
    rw [if_pos hhalt] at h
    exact nomatch h
  next hrun =>
    rw [if_neg hrun] at h
    obtain ⟨-, hthen⟩ := andThen_running h
    rw [hthen]
    intro _ hpending
    rcases (kept_calcValidator turn _).pending hpending with hclear | hretry
    · exact absurd hclear (not_pending_clear _ _)
    · exact hretry

/-! ## §4. One turn, and a run. -/

/-- The proposal timer makes a candidate. -/
theorem pending_proposeBlock (n : Node) :
    (n.proposeBlock crypto turn).hasBlock = true
      ∧ (n.proposeBlock crypto turn).timeoutRetry = n.timeoutRetry
      ∧ (n.proposeBlock crypto turn).adds = n.adds
      ∧ (n.proposeBlock crypto turn).halted = (n.halted || !n.canBroadcast) := by
  refine ⟨?_, rfl, rfl, ?_⟩
  · have hheld : (n.proposeBlock crypto turn).held = some (n.proposal crypto n.arrayPoolTx) :=
      congrArg some (Function.update_self ..)
    unfold Consensus.hasBlock
    rw [hheld]
    exact decide_eq_true (Nat.succ_pos _)
  · have hsent : n.sent.length
        < (n.toConsensus.propose crypto turn.now n.arrayPoolTx).sent.length := by
      show n.sent.length < (n.sent ++ [_]).length
      rw [List.length_append]
      exact Nat.lt_succ_self _
    show (n.halted || (decide _ && !n.canBroadcast)) = _
    rw [decide_eq_true hsent, Bool.true_and]

/-- The transaction in flight and the retry. -/
def flight (n : Node) : Option RecordTx × Bool := (n.ownTx, n.timeoutRetry)

theorem flight_calcValidator (n : Node) : (n.calcValidator turn).flight = n.flight := by
  unfold calcValidator
  split <;> rfl

/-- A broadcast that throws is the last thing that happens. -/
theorem flight_submit (n : Node) (hrun : n.halted = false) (height : Nat) (tx : TransactionStruct)
    (h : (n.submit crypto turn height tx).halted = true) :
    (n.submit crypto turn height tx).flight = n.flight := by
  unfold submit at h ⊢
  split
  next hown =>
    rw [if_pos hown] at h
    unfold processAddTx setupRetry at h
    split at h
    · exact nomatch hrun.symm.trans h
    · exact nomatch hrun.symm.trans h
  next hother =>
    rw [if_neg hother] at h
    unfold andThen at h ⊢
    split
    · rfl
    next hposted =>
      rw [if_neg hposted] at h
      exact absurd h hposted

/-- A call of `doAddTx` that throws leaves a transaction in flight, and the timer
as it was. -/
theorem thrown_doAddTx (n : Node) (hrun : n.halted = false)
    (h : (n.doAddTx crypto turn).halted = true) :
    (n.doAddTx crypto turn).ownTx ≠ none
      ∧ (n.doAddTx crypto turn).timeoutRetry = n.timeoutRetry := by
  obtain ⟨hown, hstack, -⟩ := (doAddTx_halted_iff crypto n turn hrun).mp h
  obtain ⟨r, rest, hstack⟩ := List.exists_cons_of_ne_nil hstack
  unfold doAddTx at h ⊢
  rw [hown, hstack] at h ⊢
  dsimp only at h ⊢
  set m : Node := { n with
    stackTransaction := rest
    ownTx := some { height := n.chain.height + 1, tx := n.signTx crypto r } } with hm
  have hcalc : (m.calcValidator turn).flight = m.flight := flight_calcValidator turn m
  have hflight : ((m.calcValidator turn).andThen fun m =>
      m.submit crypto turn (n.chain.height + 1) (n.signTx crypto r)).flight = m.flight := by
    unfold andThen at h ⊢
    split
    · exact hcalc
    next hsearched =>
      rw [if_neg hsearched] at h
      exact (flight_submit turn _ (Bool.eq_false_iff.mpr hsearched) _ _ h).trans hcalc
  refine ⟨?_, congrArg Prod.snd hflight⟩
  intro hnone
  exact nomatch (congrArg Prod.fst hflight).symm.trans hnone

/-- The same for `stackTx`. -/
theorem thrown_stackTx (n : Node) (hrun : n.halted = false) (commands : List Command) (ident : Text)
    (h : (n.stackTx crypto turn commands ident).halted = true) :
    (n.stackTx crypto turn commands ident).ownTx ≠ none
      ∧ (n.stackTx crypto turn commands ident).timeoutRetry = n.timeoutRetry := by
  unfold stackTx stack at h ⊢
  dsimp only at h ⊢
  split
  next hvalid =>
    rw [if_pos hvalid] at h
    exact thrown_doAddTx turn _ hrun h
  next hvalid =>
    rw [if_neg hvalid] at h
    exact nomatch hrun.symm.trans h

theorem hangs_stackTx (n : Node) (commands : List Command) (ident : Text) :
    (n.stackTx crypto turn commands ident).hangs turn = n.hangs turn := by
  have hcore : (n.stackTx crypto turn commands ident).core = n.core := n.stack_core turn _ ident
  exact hangs_congr turn (congrArg Consensus.chain (congrArg Prod.fst hcore))
    (congrArg Prod.snd hcore)

/-- An exception of `stackTx` that its caller catches. -/
theorem caught_stackTx (n : Node) (hrun : n.halted = false) (commands : List Command)
    (ident : Text) (h : (n.stackTx crypto turn commands ident).halted = true)
    (hcaught : ((n.stackTx crypto turn commands ident).rescue turn).halted = false) :
    ThrowsCaught crypto n turn (.stackTx commands ident) := by
  have hthrows := (stack_halted_iff crypto n turn hrun (numbered commands) ident).mp h
  change ((n.stackTx crypto turn commands ident).halted
    && ((n.stackTx crypto turn commands ident).hangs turn || !turn.caught)) = false at hcaught
  rw [h, hangs_stackTx, Bool.true_and, Bool.or_eq_false_iff] at hcaught
  refine ⟨commands, ident, rfl, hthrows.1, hthrows.2, hcaught.1, ?_⟩
  simpa using hcaught.2

/-- A call of the API. -/
theorem guarded_stackTx (hn : n.Guarded) (hrun : n.halted = false) (commands : List Command)
    (ident : Text) (hcond : FindsGuarded crypto n turn (.stackTx commands ident))
    (h : ((n.stackTx crypto turn commands ident).rescue turn).halted = false) :
    ((n.stackTx crypto turn commands ident).rescue turn).Guarded := by
  cases hthrows : (n.stackTx crypto turn commands ident).halted with
  | false => exact (kept_stack turn n _ ident hthrows).guarded hn
  | true =>
    have hcaught := caught_stackTx turn n hrun commands ident hthrows h
    obtain ⟨-, hsame⟩ := thrown_stackTx turn n hrun commands ident hthrows
    have hadds : (n.stackTx crypto turn commands ident).adds = n.adds :=
      congrArg Consensus.adds (n.stackTx_toConsensus turn commands ident)
    intro hnone _
    rcases hcond hrun (Or.inr hcaught) with hadd | hretry
    · exact absurd (hadds.symm.trans hnone) hadd
    · exact hsame.trans hretry

/-- A call of `add` that goes on. -/
theorem guarded_resumeAdd (hn : n.Guarded) (i : Nat)
    (h : (n.resumeAdd crypto turn i).halted = false) : (n.resumeAdd crypto turn i).Guarded := by
  unfold resumeAdd at h ⊢
  split
  · exact hn
  next t ht =>
    rw [ht] at h
    dsimp only at h ⊢
    split
    next oc hp =>
      have hrunCommand : Kept n { n with
          toConsensus := n.toConsensus.runCommand i t oc
          mapStakeCredit := n.credited oc.1 oc.2 } := by
        refine .of_same rfl rfl rfl ?_
        intro hadds
        have hlength := congrArg List.length hadds
        change (n.adds.set i _).length = 0 at hlength
        rw [List.length_set] at hlength
        exact List.length_eq_zero_iff.mp hlength
      exact hrunCommand.guarded hn
    next hp =>
      rw [hp] at h
      exact guarded_finishAdd turn n i t h

/-- **One turn keeps what is pending guarded**, unless it arms no retry and finds
none armed. -/
theorem guarded_step (hn : n.Guarded) {e : Event} (hcond : FindsGuarded crypto n turn e)
    (h : (n.step crypto turn e).halted = false) : (n.step crypto turn e).Guarded := by
  obtain ⟨hrun, hstep⟩ := andThen_running (f := fun n => n.react crypto turn e) h
  change n.step crypto turn e = n.react crypto turn e at hstep
  rw [hstep] at h ⊢
  cases e with
  | stackTx commands ident => exact guarded_stackTx turn hn hrun commands ident hcond h
  | message m =>
    rw [react] at h ⊢
    split
    next hvalid =>
      rw [if_pos hvalid] at h
      exact (kept_processMessage turn n m h).guarded hn
    · exact hn
  | timeoutAddTx =>
    rw [react] at h ⊢
    split
    next harmed =>
      rw [if_pos harmed] at h
      have hdisarm : Kept n { n with timeoutAddTx := false } := .of_same rfl rfl rfl id
      exact (hdisarm.trans (kept_doAddTx turn _ h)).guarded hn
    · exact hn
  | timeoutProposeBlock =>
    rw [react] at h ⊢
    split
    next harmed =>
      rw [if_pos harmed] at h
      obtain ⟨-, -, -, hhalted⟩ := pending_proposeBlock turn
        { n with timeoutProposeBlock := false }
      rw [hhalted, Bool.or_eq_false_iff, Bool.not_eq_false'] at h
      intro hadds _
      -- with an add in flight there is nothing to show
      rcases hcond hrun (Or.inl ⟨rfl, harmed, h.2⟩) with hadd | hretry
      · exact absurd hadds hadd
      · exact hretry
    · exact hn
  | timeoutRetry =>
    rw [react] at h ⊢
    split
    next harmed =>
      rw [if_pos harmed] at h
      refine (kept_doAddTx turn _ h).guarded ?_
      intro _ hpending
      exact absurd hpending (not_pending_clear n none)
    · exact hn
  | timeoutStatus => exact (Kept.of_same rfl rfl rfl id).guarded hn
  | resumeAdd i => exact guarded_resumeAdd turn hn i h
  | syncAnswer blocks =>
    rw [react]
    rcases n.toConsensus.answerSync_cases blocks with hstep | hstep
    · rw [hstep]
      exact hn
    · rw [hstep]
      exact (Kept.of_same rfl rfl rfl id).guarded hn
  | continueSync => exact (kept_continueSync n).guarded hn
  | p2pNetwork =>
    rw [react]
    split
    · exact hn
    · exact (Kept.of_same rfl rfl rfl id).guarded hn

/-- A turn that arms no retry and finds none armed leaves something pending
without one. -/
theorem not_retryArmed_of_unarmed {e : Event} (hcond : ¬ FindsGuarded crypto n turn e) :
    ¬ (n.step crypto turn e).RetryArmed := by
  unfold FindsGuarded at hcond
  push Not at hcond
  obtain ⟨hrun, hunarmed, hadds, hretry⟩ := hcond
  rcases hunarmed with ⟨rfl, harmed, hsends⟩ | ⟨commands, ident, rfl, hoff, hlost, hhangs, hcaught⟩
  · have hstep : n.step crypto turn .timeoutProposeBlock
        = { n with timeoutProposeBlock := false }.proposeBlock crypto turn := by
      rw [step_of_running crypto hrun, react, if_pos harmed]
    obtain ⟨hblock, hsame, hcalls, hhalted⟩ := pending_proposeBlock turn
      { n with timeoutProposeBlock := false }
    have hgoes : (n.halted || !n.canBroadcast) = false := by
      rw [hrun, hsends]
      rfl
    rw [hstep]
    intro hclaim
    exact hretry (hsame.symm.trans
      (hclaim (hhalted.trans hgoes) (hcalls.trans hadds) (Or.inl hblock)))
  · have hthrows : (n.stackTx crypto turn commands ident).halted = true :=
      (stack_halted_iff crypto n turn hrun (numbered commands) ident).mpr ⟨hoff, hlost⟩
    obtain ⟨hown, hsame⟩ := thrown_stackTx turn n hrun commands ident hthrows
    have hcalls : (n.stackTx crypto turn commands ident).adds = n.adds :=
      congrArg Consensus.adds (n.stackTx_toConsensus turn commands ident)
    have hgoes : ((n.stackTx crypto turn commands ident).rescue turn).halted = false := by
      show ((n.stackTx crypto turn commands ident).halted
        && ((n.stackTx crypto turn commands ident).hangs turn || !turn.caught)) = false
      rw [hangs_stackTx, hhangs, hcaught, Bool.not_true, Bool.or_false, Bool.and_false]
    rw [step_of_running crypto hrun, react]
    intro hclaim
    exact hretry (hsame.symm.trans (hclaim hgoes (hcalls.trans hadds) (Or.inr hown)))

/-- A run from any guarded node. -/
theorem run_retryArmed_iff : ∀ {n : Node} (l : List (Turn × Event)),
    (n.halted = false → n.Guarded) →
      ((∀ k, (n.run crypto (l.take k)).RetryArmed)
        ↔ Allowed crypto (FindsGuarded crypto) n l)
  | n, [], hn => by
      have hrun : ∀ k, n.run crypto (([] : List (Turn × Event)).take k) = n := fun k => by
        rw [List.take_nil]
        rfl
      constructor
      · intro _
        exact trivial
      · intro _ k
        rw [hrun k]
        exact fun h => (hn h).retryArmed h
  | n, x :: l, hn => by
      have hnext : FindsGuarded crypto n x.1 x.2 →
          ((n.step crypto x.1 x.2).halted = false → (n.step crypto x.1 x.2).Guarded) := by
        intro hcond h
        exact guarded_step x.1 (hn (andThen_running (f := fun n => n.react crypto x.1 x.2) h).1)
          hcond h
      constructor
      · intro hall
        -- a turn that does not meet it is seen in the state behind it
        have hcond : FindsGuarded crypto n x.1 x.2 := by
          by_contra hbad
          exact not_retryArmed_of_unarmed x.1 hbad (hall 1)
        exact ⟨hcond, (run_retryArmed_iff l (hnext hcond)).mp fun k => hall (k + 1)⟩
      · intro hallowed k
        cases k with
        | zero => exact fun h => (hn h).retryArmed h
        | succ k => exact (run_retryArmed_iff l (hnext hallowed.1)).mpr hallowed.2 k

/-- **What is pending is guarded by a retry if and only if** the turns that arm
none find it armed, or a call of `add` in flight: in every run, whatever its turns
and its chain are. -/
theorem retry_guards_iff (chain : Blockchain) (l : List (Turn × Event)) :
    (∀ k, ((start chain).run crypto (l.take k)).RetryArmed)
      ↔ Allowed crypto (FindsGuarded crypto) (start chain) l := by
  refine run_retryArmed_iff l ?_
  intro _ _ hpending
  rcases hpending with hblock | htx
  · exact absurd rfl hblock
  · exact absurd rfl htx

/-! ## §5. A validator that pools for others. -/

open Blockchain (sampleCrypto sampleStart sampleTx)

/-- Peer 1 is the validator and has pooled the transaction of peer 0. -/
def poolForOther : List (Turn × Event) :=
  [(allOnline, .p2pNetwork), (allOnline, .message (messageOf 0 (.addTx 2 sampleTx))),
    (allOnline, .timeoutProposeBlock)]

/-- **A candidate nothing clears**: the proposal timer has fired, and no timer is
armed any more. -/
theorem candidate_without_retry :
    let n := (start (sampleStart 1)).run sampleCrypto poolForOther
    n.halted = false ∧ n.adds = [] ∧ n.hasBlock = true ∧ n.timeoutRetry = false
      ∧ n.timeoutAddTx = false ∧ n.timeoutProposeBlock = false := by
  decide +kernel

end Node

end Divachain
