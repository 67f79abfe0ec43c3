/-
  Divachain.Net.Handled — what a turn brings into a node.

  Besides its blocks a node holds transactions in the pool of the validator and
  in the messages it has posted, and the records they are made of in its line.
  `Handles` is what one turn does to these: what is new has come with the event,
  or carries the node's signature for a record that waited in the line.  Each
  function of the node gets the lemma that says so, the commit included.
-/
import Divachain.Net.Sourced
import Divachain.Net.Line
import Divachain.Net.Signing

namespace Divachain

open DataKit

/-! ## §1. What is new after a turn. -/

/-- The properties of the commands are those that the schema asks for. -/
def RecordStack.WellKeyed (r : RecordStack) : Prop := ∀ c ∈ r.commands, c.WellKeyed

namespace Node

/-- The transactions of the validator's pool. -/
def pooledTxs (n : Node) : List TransactionStruct := n.current.values ++ n.arrayPoolTx

/-- The transactions an event brings in. -/
def Event.txs : Event → List TransactionStruct
  | .message m => m.data.txs
  | .syncAnswer blocks => blocks.flatMap BlockStruct.tx
  | _ => []

variable (crypto : Crypto)

/-- The transaction carries a signature of this key for a record that waits in
`n` or has been accepted by `m`. -/
def Own (n m : Node) (t : TransactionStruct) : Prop :=
  ∃ r height, (r ∈ n.line ∨ r ∈ m.accepted) ∧ t.origin = n.chain.publicKey
    ∧ t.sig = crypto.sign n.chain.publicKey (signedText height r.commands)

/-- **What a turn that brings in `In` does** to the line, the pool and what is
posted. -/
structure Handles (In : TransactionStruct → Prop) (n m : Node) : Prop where
  publicKey : m.chain.publicKey = n.chain.publicKey
  accepted : ∃ rs, m.accepted = n.accepted ++ rs ∧ ∀ r ∈ rs, RecordStack.WellKeyed r
  line : ∀ r ∈ m.line, r ∈ n.line ∨ r ∈ m.accepted
  pooled : ∀ t ∈ m.pooledTxs, t ∈ n.pooledTxs ∨ In t ∨ Own crypto n m t
  posted : ∀ msg ∈ m.posted, ∀ t ∈ msg.data.txs, msg ∈ n.posted ∨ Own crypto n m t

variable {crypto} {In : TransactionStruct → Prop} {n m : Node}

theorem Handles.accepted_subset (h : Handles crypto In n m) : n.accepted ⊆ m.accepted := by
  obtain ⟨rs, haccepted, -⟩ := h.accepted
  rw [haccepted]
  exact List.subset_append_left _ _

/-- Only these fields matter. -/
theorem Handles.of_same (hkey : m.chain.publicKey = n.chain.publicKey)
    (haccepted : m.accepted = n.accepted) (hline : m.line = n.line)
    (hpooled : m.pooledTxs = n.pooledTxs) (hposted : m.posted = n.posted) : Handles crypto In n m := by
  refine ⟨hkey, ⟨[], ?_, fun _ h => (nomatch h)⟩, ?_, ?_, ?_⟩
  · rw [haccepted, List.append_nil]
  · intro r hr
    exact Or.inl (hline ▸ hr)
  · intro t ht
    exact Or.inl (hpooled ▸ ht)
  · intro msg hmsg t _
    exact Or.inl (hposted ▸ hmsg)

theorem Handles.refl (n : Node) : Handles crypto In n n := .of_same rfl rfl rfl rfl rfl

theorem Own.of_le {k : Node} (h : Handles crypto In m k) {t : TransactionStruct}
    (ht : Own crypto n m t) : Own crypto n k t := by
  obtain ⟨r, height, hr, horigin, hsig⟩ := ht
  refine ⟨r, height, ?_, horigin, hsig⟩
  rcases hr with hr | hr
  · exact Or.inl hr
  · exact Or.inr (h.accepted_subset hr)

theorem Own.after {k : Node} (h : Handles crypto In n m) (h' : Handles crypto In m k)
    {t : TransactionStruct} (ht : Own crypto m k t) : Own crypto n k t := by
  obtain ⟨r, height, hr, horigin, hsig⟩ := ht
  rw [h.publicKey] at horigin hsig
  refine ⟨r, height, ?_, horigin, hsig⟩
  -- a record that waits in between has waited before or been accepted since
  rcases hr with hr | hr
  · rcases h.line r hr with hr | hr
    · exact Or.inl hr
    · exact Or.inr (h'.accepted_subset hr)
  · exact Or.inr hr

theorem Handles.trans {k : Node} (h : Handles crypto In n m) (h' : Handles crypto In m k) :
    Handles crypto In n k := by
  refine ⟨h'.publicKey.trans h.publicKey, ?_, ?_, ?_, ?_⟩
  · obtain ⟨rs, haccepted, hkeyed⟩ := h.accepted
    obtain ⟨rs', haccepted', hkeyed'⟩ := h'.accepted
    refine ⟨rs ++ rs', ?_, ?_⟩
    · rw [haccepted', haccepted, List.append_assoc]
    · intro r hr
      rcases List.mem_append.mp hr with hr | hr
      · exact hkeyed r hr
      · exact hkeyed' r hr
  · intro r hr
    rcases h'.line r hr with hr | hr
    · rcases h.line r hr with hr | hr
      · exact Or.inl hr
      · exact Or.inr (h'.accepted_subset hr)
    · exact Or.inr hr
  · intro t ht
    rcases h'.pooled t ht with ht | hin | hown
    · rcases h.pooled t ht with ht | hin | hown
      · exact Or.inl ht
      · exact Or.inr (Or.inl hin)
      · exact Or.inr (Or.inr (hown.of_le h'))
    · exact Or.inr (Or.inl hin)
    · exact Or.inr (Or.inr (hown.after h h'))
  · intro msg hmsg t ht
    rcases h'.posted msg hmsg t ht with hmsg | hown
    · rcases h.posted msg hmsg t ht with hmsg | hown
      · exact Or.inl hmsg
      · exact Or.inr (hown.of_le h')
    · exact Or.inr (hown.after h h')

theorem Handles.andThen (h : Handles crypto In n m) {f : Node → Node}
    (hf : Handles crypto In m (f m)) : Handles crypto In n (m.andThen f) := by
  unfold Node.andThen
  split
  · exact h
  · exact h.trans hf

/-! ## §2. The functions of a node. -/

theorem handles_calcValidator (n : Node) (turn : Turn) :
    Handles crypto In n (n.calcValidator turn) := by
  unfold calcValidator
  split <;> exact .of_same rfl rfl rfl rfl rfl

theorem handles_setupRetry (n : Node) : Handles crypto In n n.setupRetry :=
  .of_same rfl rfl rfl rfl rfl

/-- The consensus part does not matter, apart from its key. -/
theorem handles_setConsensus (n : Node) {c : Consensus}
    (hkey : c.chain.publicKey = n.chain.publicKey) :
    Handles crypto In n { n with toConsensus := c } := .of_same hkey rfl rfl rfl rfl

theorem handles_transmit (n : Node) {c : Consensus}
    (hkey : c.chain.publicKey = n.chain.publicKey) : Handles crypto In n (n.transmit c) :=
  .of_same hkey rfl rfl rfl rfl

theorem handles_post (n : Node) {msg : Message}
    (hmsg : ∀ t ∈ msg.data.txs, Own crypto n n t) : Handles crypto In n (n.post msg) := by
  refine ⟨rfl, ⟨[], (List.append_nil _).symm, fun _ h => (nomatch h)⟩, fun _ => Or.inl,
    fun _ => Or.inl, ?_⟩
  intro msg' hmem t ht
  rcases List.mem_append.mp hmem with hmem | hmem
  · exact Or.inl hmem
  · obtain rfl := List.mem_singleton.mp hmem
    exact Or.inr (hmsg t ht)

theorem handles_processAddTx (n : Node) (origin : Text) (height : Nat) {tx : TransactionStruct}
    (htx : In tx ∨ Own crypto n n tx) :
    Handles crypto In n (n.processAddTx crypto origin height tx) := by
  unfold processAddTx
  split
  · refine ⟨rfl, ⟨[], (List.append_nil _).symm, fun _ h => (nomatch h)⟩, fun _ => Or.inl, ?_,
      fun _ hmsg _ _ => Or.inl hmsg⟩
    have hset : ∀ t ∈ (n.current.set origin tx).values,
        t ∈ n.pooledTxs ∨ In t ∨ Own crypto n n t := by
      intro t ht
      rcases OrdMap.mem_values_set ht with rfl | ht
      · exact Or.inr htx
      · exact Or.inl (List.mem_append_left _ ht)
    -- the sorted pool has the transactions that are current
    intro t ht
    rcases List.mem_append.mp ht with ht | ht
    · exact hset t ht
    · exact hset t ((sortPool_perm _).mem_iff.mp ht)
  · exact .refl n

theorem handles_submit (n : Node) (turn : Turn) (height : Nat) {tx : TransactionStruct}
    (htx : Own crypto n n tx) : Handles crypto In n (n.submit crypto turn height tx) := by
  unfold submit
  split
  · exact (handles_processAddTx n _ height (Or.inr htx)).trans (handles_setupRetry _)
  · refine (handles_post n ?_).andThen (handles_setupRetry _)
    intro t ht
    obtain rfl := List.mem_singleton.mp ht
    exact htx

theorem handles_doAddTx (n : Node) (turn : Turn) :
    Handles crypto In n (n.doAddTx crypto turn) := by
  unfold doAddTx
  split
  next r rest hown hstack =>
    set taken : Node :=
      { n with
        stackTransaction := rest
        ownTx := some { height := n.chain.height + 1, tx := n.signTx crypto r } } with htaken
    -- taking the head of the stack leaves the line as it is
    have hline : taken.line = n.line := by
      rw [Node.line, Node.line, hown, hstack]
      rfl
    have hvalidator : Handles crypto In taken (taken.calcValidator turn) :=
      handles_calcValidator taken turn
    have hhead : Own crypto (taken.calcValidator turn) (taken.calcValidator turn)
        (n.signTx crypto r) := by
      refine ⟨r, n.chain.height + 1, Or.inl ?_, hvalidator.publicKey.symm, ?_⟩
      · have hsame : (taken.calcValidator turn).line = taken.line := by
          unfold calcValidator
          split <;> rfl
        rw [hsame, hline, Node.line, hown, hstack]
        exact List.mem_cons_self
      · rw [hvalidator.publicKey]
        rfl
    have hstart : Handles crypto In n taken := .of_same rfl rfl hline rfl rfl
    exact (hstart.trans hvalidator).andThen (handles_submit _ turn _ hhead)
  next => exact .refl n

theorem handles_stack (n : Node) (turn : Turn) (commands : List Command) (ident : Text) :
    Handles crypto In n (n.stack crypto turn commands ident) := by
  unfold stack
  dsimp only
  split
  next hvalid =>
    set r : RecordStack := { ident := identOf turn ident, commands := commands }
    refine Handles.trans ?_ (handles_doAddTx _ turn)
    refine ⟨rfl, ⟨[r], rfl, ?_⟩, ?_, fun _ => Or.inl, fun _ hmsg _ _ => Or.inl hmsg⟩
    -- what is stacked has passed the schema
    · intro r' hr'
      obtain rfl := List.mem_singleton.mp hr'
      exact (TransactionStruct.valid_wellKeyed (validateTx_iff.mp hvalid).1).2
    · intro r' hr'
      rcases List.mem_append.mp hr' with hr' | hr'
      · exact Or.inl (List.mem_append_left _ hr')
      · rcases List.mem_append.mp hr' with hr' | hr'
        · exact Or.inl (List.mem_append_right _ hr')
        · exact Or.inr (List.mem_append_right _ hr')
  next => exact .refl n

theorem handles_proposeModifyStake (n : Node) (turn : Turn) (publicKey ident : Text)
    (stake : Int) : Handles crypto In n (n.proposeModifyStake crypto turn publicKey ident stake) := by
  unfold proposeModifyStake
  dsimp only
  have hqueue : ∀ (credit : Int) (c : Command),
      Handles crypto In n (n.queueProposal publicKey credit c) :=
    fun _ _ => .of_same rfl rfl rfl rfl rfl
  split
  · split
    · split
      · exact ((hqueue _ _).trans (handles_stack _ turn _ [])).andThen
          (.of_same rfl rfl rfl rfl rfl)
      · exact hqueue _ _
    · exact .refl n
  · exact .refl n

/-- `clear` puts the transaction in flight back, or takes it off the line. -/
theorem handles_clear (n : Node) (b : Option BlockStruct) : Handles crypto In n (n.clear b) := by
  refine ⟨rfl, ⟨[], (List.append_nil _).symm, fun _ h => (nomatch h)⟩, ?_,
    fun _ h => (nomatch h), fun _ hmsg _ _ => Or.inl hmsg⟩
  intro r hr
  refine Or.inl ?_
  unfold clear Node.line at hr
  unfold Node.line
  cases hown : n.ownTx with
  | none =>
      rw [hown] at hr
      exact hr
  | some own =>
      rw [hown] at hr
      dsimp only at hr
      split at hr
      · exact List.mem_cons_of_mem _ hr
      · exact hr

theorem handles_processProposeBlock (n : Node) (turn : Turn) (b : BlockStruct) :
    Handles crypto In n (n.processProposeBlock crypto turn b) := by
  unfold processProposeBlock
  split
  · have hhold : Handles crypto In n { n with toConsensus := n.toConsensus.hold b } :=
      handles_setConsensus n rfl
    refine (hhold.trans (handles_calcValidator _ turn)).andThen ?_
    refine Handles.andThen ?_ (handles_setupRetry _)
    exact handles_transmit _ (Consensus.sameTop_approve _ turn.now _ b.hash).publicKey
  · exact .refl n

theorem handles_processStatus (n : Node) (turn : Turn) (origin : Text) (kind height : Nat) :
    Handles crypto In n (n.processStatus crypto turn origin kind height) := by
  have hfetch : Handles crypto In n { n with toConsensus := n.toConsensus.fetchSync height } :=
    handles_setConsensus n (Consensus.sameTop_fetchSync n.toConsensus height).publicKey
  unfold processStatus
  dsimp only
  split
  · split
    · exact hfetch.trans (handles_proposeModifyStake _ turn _ _ _)
    · exact hfetch
  · exact .refl n

/-- The stake vote may stack a transaction of the node's own. -/
theorem handles_updateCache (n : Node) (turn : Turn) (b : BlockStruct) :
    Handles crypto In n (n.updateCache crypto turn b) := by
  have hcache : Handles crypto In n (n.setChain ((n.chain.cacheBlock b).countVotes b)) :=
    .of_same rfl rfl rfl rfl rfl
  unfold updateCache
  dsimp only
  refine hcache.trans ?_
  generalize n.setChain ((n.chain.cacheBlock b).countVotes b) = k
  cases (((n.chain.cacheBlock b).countVotes b).stakeVote b) with
  | skip => exact .refl k
  | throws => exact .of_same rfl rfl rfl rfl rfl
  | propose publicKey =>
      refine Handles.andThen (handles_proposeModifyStake k turn publicKey _ _) ?_
      split
      · exact .of_same rfl rfl rfl rfl rfl
      · exact .refl _

theorem handles_finishAdd (n : Node) (turn : Turn) (i : Nat) (t : AddTask) :
    Handles crypto In n (n.finishAdd crypto turn i t) := by
  have hupdate : Handles crypto In n (n.updateCache crypto turn (n.objects t.obj)) :=
    handles_updateCache n turn (n.objects t.obj)
  unfold finishAdd
  dsimp only
  split
  · exact .of_same rfl rfl rfl rfl rfl
  · set k := n.updateCache crypto turn (n.objects t.obj)
    have hfinish : Handles crypto In k
        { k with toConsensus := k.toConsensus.finish i t k.chain } := handles_setConsensus k rfl
    have hclear := (hupdate.trans hfinish).trans (handles_clear _ (some (n.objects t.obj)))
    exact (hclear.trans (handles_calcValidator _ turn)).andThen (.of_same rfl rfl rfl rfl rfl)

theorem handles_resumeAdd (n : Node) (turn : Turn) (i : Nat) :
    Handles crypto In n (n.resumeAdd crypto turn i) := by
  unfold resumeAdd
  split
  · exact .refl n
  next t ht =>
    split
    -- a command changes the ledger, and the key is not in it
    · exact .of_same rfl rfl rfl rfl rfl
    · exact handles_finishAdd n turn i t

theorem handles_processMessage (n : Node) (turn : Turn) (m : Message)
    (hin : ∀ t ∈ m.data.txs, In t) : Handles crypto In n (n.processMessage crypto turn m) := by
  have hcalc : Handles crypto In n (n.calcValidator turn) := handles_calcValidator n turn
  unfold processMessage
  cases hdata : m.data with
  | addTx height tx =>
      rw [hdata] at hin
      refine hcalc.andThen ?_
      split
      · exact handles_processAddTx _ m.origin height (Or.inl (hin tx List.mem_cons_self))
      · exact .refl _
  | proposeBlock b =>
      refine hcalc.andThen ?_
      split
      · exact handles_processProposeBlock _ turn b
      · exact .refl _
  | signBlock hash sig =>
      refine hcalc.andThen ?_
      split
      · exact handles_transmit _
          (Consensus.sameTop_processSignBlock _ turn.now m.origin hash sig).publicKey
      · exact .refl _
  | confirmBlock hash votes =>
      refine hcalc.andThen ?_
      dsimp only
      split
      · exact handles_setConsensus _ (Consensus.sameTop_processConfirmBlock _ hash votes).publicKey
      · exact .refl _
  | status kind height => exact handles_processStatus n turn m.origin kind height

/-- **What a turn brings into the line, the pool and the posted messages** comes
with the event, or is the node's own. -/
theorem handles_step (n : Node) (turn : Turn) (e : Event) :
    Handles crypto (fun t => t ∈ e.txs) n (n.step crypto turn e) := by
  refine Handles.andThen (.refl n) ?_
  cases e with
  | stackTx commands ident =>
      exact (handles_stack n turn _ ident).trans (.of_same rfl rfl rfl rfl rfl)
  | message m =>
      rw [react]
      split
      · exact handles_processMessage n turn m fun _ h => h
      · exact .refl n
  | timeoutAddTx =>
      rw [react]
      split
      · have hflag : Handles crypto (fun t => t ∈ Event.timeoutAddTx.txs) n
            { n with timeoutAddTx := false } := .of_same rfl rfl rfl rfl rfl
        exact hflag.trans (handles_doAddTx _ turn)
      · exact .refl n
  | timeoutProposeBlock =>
      rw [react]
      split
      · exact .of_same rfl rfl rfl rfl rfl
      · exact .refl n
  | timeoutRetry =>
      rw [react]
      split
      · exact (handles_clear n none).trans (handles_doAddTx _ turn)
      · exact .refl n
  -- a status carries no transaction
  | timeoutStatus =>
      refine handles_post n fun _ h => ?_
      cases h
  | resumeAdd i => exact handles_resumeAdd n turn i
  | syncAnswer blocks =>
      exact handles_setConsensus n (Consensus.sameTop_answerSync n.toConsensus blocks).publicKey
  | continueSync =>
      exact handles_setConsensus n (Consensus.sameTop_continueSync n.toConsensus).publicKey
  | p2pNetwork =>
      rw [react]
      split
      · exact .refl n
      · exact .of_same rfl rfl rfl rfl rfl

end Node

end Divachain
