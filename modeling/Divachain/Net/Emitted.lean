/-
  Divachain.Net.Emitted — do the transactions a node emits stay valid?

  `stack` checks a record once, for the height it is taken at; `doAddTx` signs
  it again and again, for one height after the other, until a block has it.
  All that `validateTx` asks of a record is settled for good when it is
  stacked, except one thing: a decision is for a height that may pass.

  Main results:
    * `step_emits` — whatever a turn sends comes out of `doAddTx`, in the state
      `calls` says;
    * `line_lasts` — what waits in the line has passed all lasting checks;
    * `emitted_valid_iff` — what is emitted in a run is valid exactly if no
      decision in it is too late;
    * `validateTx_of_expired` — and what is too late is so for ever.
-/
import Divachain.Net.Credits
import Divachain.Net.Conservation

namespace Divachain

open DataKit

/-! ## §1. What lasts, and what does not. -/

/-- The decision is for a height that has passed. -/
def Command.expired (height : Nat) (c : Command) : Bool :=
  match c.body with
  | .decision _ h _ => decide (h < (height : Int))
  | _ => false

/-- All that `validateTx` asks of a command, but for the height. -/
def Command.lasts (l : Ledger) (origin : Text) (c : Command) : Bool :=
  match c.body with
  | .removePeer publicKey => decide (origin = publicKey)
  | .decision ns _ _ => !l.isDecisionTaken ns
  | _ => true

def RecordStack.expired (height : Nat) (r : RecordStack) : Bool := r.commands.any (·.expired height)

/-- **Of all commands only a decision depends on the height.** -/
theorem validateCommand_eq (l : Ledger) (height : Nat) (origin : Text) (c : Command) :
    validateCommand l height origin c = (c.lasts l origin && !c.expired height) := by
  unfold validateCommand Command.lasts Command.expired
  cases c.body with
  | decision ns h d =>
    have hnot : decide ((height : Int) ≤ h) = !decide (h < (height : Int)) := by
      rw [← decide_not, decide_eq_decide]
      omega
    dsimp only
    rw [hnot, Bool.and_comm]
  | _ => simp

/-- What is too late stays too late. -/
theorem Command.expired_mono {c : Command} {height height' : Nat} (hle : height ≤ height')
    (h : c.expired height = true) : c.expired height' = true := by
  unfold Command.expired at h ⊢
  cases hbody : c.body with
  | decision ns d _ =>
    rw [hbody] at h
    have hlt : d < (height : Int) := of_decide_eq_true h
    show decide (d < (height' : Int)) = true
    rw [decide_eq_true_eq]
    omega
  | _ =>
    rw [hbody] at h
    exact nomatch h

/-- **A transaction that is too late is rejected by everybody, for ever.** -/
theorem validateTx_of_expired {crypto : Crypto} {height : Nat} {tx : TransactionStruct}
    (h : tx.record.expired height = true) (l : Ledger) {height' : Nat} (hle : height ≤ height')
    (ident : Text) (publicKey : Text) :
    validateTx crypto l height' (Transaction.make crypto publicKey height' ident tx.commands)
      = false := by
  obtain ⟨c, hc, hexpired⟩ := List.any_eq_true.mp h
  rw [← Bool.not_eq_true, validateTx_iff]
  intro hvalid
  have hpass : validateCommand l height' publicKey c = true := hvalid.2.2.2 c hc
  rw [validateCommand_eq, Command.expired_mono hle hexpired, Bool.not_true, Bool.and_false] at hpass
  exact nomatch hpass

namespace Node

variable {crypto : Crypto} {n m : Node}

/-- What the lasting checks read of a chain. -/
def checked (c : Consensus) : Text × List (Text × Text) :=
  (c.chain.publicKey, c.chain.arrayTakenDecision)

/-- The record passes all checks that last. -/
def Lasts (n : Node) (r : RecordStack) : Prop :=
  draftValid n.chain.publicKey r.ident r.commands = true
    ∧ ∀ c ∈ r.commands, c.lasts n.chain.toLedger n.chain.publicKey = true

theorem lasts_congr (h : checked m.toConsensus = checked n.toConsensus) (r : RecordStack) :
    Lasts m r ↔ Lasts n r := by
  have hkey : m.chain.publicKey = n.chain.publicKey := congrArg Prod.fst h
  have htaken : m.chain.arrayTakenDecision = n.chain.arrayTakenDecision := congrArg Prod.snd h
  have hlasts : ∀ c : Command, c.lasts m.chain.toLedger n.chain.publicKey
      = c.lasts n.chain.toLedger n.chain.publicKey := by
    intro c
    unfold Command.lasts Ledger.isDecisionTaken
    rw [htaken]
  unfold Lasts
  rw [hkey]
  simp only [hlasts]

theorem expired_eq_false_iff {r : RecordStack} {height : Nat} :
    r.expired height = false ↔ ∀ c ∈ r.commands, c.expired height = false := by
  rw [RecordStack.expired, List.any_eq_false]
  simp only [Bool.not_eq_true]

/-- **What `stack` takes lasts, and is not too late yet.** -/
theorem takes_iff (hformat : crypto.Formatted) (hcorrect : crypto.SignCorrect) {r : RecordStack} :
    Takes crypto n r ↔ Lasts n r ∧ r.expired (n.chain.height + 1) = false := by
  unfold Takes signTx
  rw [validateTx_make_iff hformat hcorrect, expired_eq_false_iff]
  simp only [validateCommand_eq, Bool.and_eq_true, Bool.not_eq_true']
  constructor
  · intro h
    exact ⟨⟨h.1, fun c hc => (h.2.2 c hc).1⟩, fun c hc => (h.2.2 c hc).2⟩
  · intro h
    exact ⟨h.1.1, Nat.succ_pos _, fun c hc => ⟨h.1.2 c hc, h.2 c hc⟩⟩

theorem checked_fetchSync (c : Consensus) (height : Nat) :
    checked (c.fetchSync height) = checked c := by
  rcases c.fetchSync_cases height with hstep | hstep
  · rw [hstep]
  · rw [hstep]
    rfl

/-- No move changes what the lasting checks read. -/
theorem checked_of_move {c c' : Consensus} {kind : Kind} (hmove : Move crypto c kind c') :
    checked c' = checked c := by
  have hstart : ∀ (c : Consensus) (obj : Nat) (fromSync : Bool),
      checked (c.startAdd crypto obj fromSync) = checked c := by
    intro c obj fromSync
    rcases c.startAdd_cases crypto obj fromSync with ⟨-, hstep⟩ | ⟨-, hstep⟩
    · rw [hstep]
      rfl
    · rw [hstep]
  have hvote : ∀ (c : Consensus) (now : Nat) (origin hash sig : Text),
      checked (c.processSignBlock crypto now origin hash sig) = checked c := by
    intro c now origin hash sig
    rcases c.processSignBlock_cases crypto now origin hash sig with
      ⟨-, hstep⟩ | ⟨obj, -, ⟨-, hstep⟩ | ⟨-, hstep⟩⟩
    · rw [hstep]
    · rw [hstep]
      rfl
    · rw [hstep]
      exact hstart _ _ false
  cases hmove with
  | quiet => rfl
  | propose now pool => rfl
  | hold b hacc => rfl
  | approve b now validator hacc =>
      rcases (c.hold b).approve_cases crypto now validator b.hash with ⟨-, hstep⟩ | ⟨-, hstep⟩
      · rw [hstep]
        exact hvote _ _ _ _ _
      · rw [hstep]
        rfl
  | vote now origin hash sig => exact hvote c now origin hash sig
  | confirm hash votes =>
      rcases c.processConfirmBlock_cases crypto hash votes with hstep | ⟨obj, -, -, -, hstep⟩
      · rw [hstep]
      · rw [hstep]
        exact hstart _ _ false
  | fetch height => exact checked_fetchSync c height
  | answer blocks =>
      rcases c.answerSync_cases blocks with hstep | hstep
      · rw [hstep]
      · rw [hstep]
        rfl
  | continueSync =>
      rcases c.continueSync_cases crypto with hstep | ⟨sync, -, hstep⟩ | ⟨b, blocks, -, -, hstep⟩
      · rw [hstep]
      · rw [hstep]
        rfl
      · rw [hstep]
        exact hstart (c.alloc b) c.next true
  | drop => rfl
  -- Commands change the ledger, but none takes a decision.
  | runCommand i t oc ht hp =>
      exact Prod.ext rfl (Ledger.arrayTakenDecision_apply c.chain.toLedger oc)
  | finish i t answer chain ht hp hc =>
      have hcached := Blockchain.updateCache_spec hc
      exact Prod.ext hcached.publicKey (congrArg Ledger.arrayTakenDecision hcached.ledger)

theorem checked_step (n : Node) (turn : Turn) (e : Event) :
    checked (n.step crypto turn e).toConsensus = checked n.toConsensus := by
  obtain ⟨kind, -, hmove⟩ : ∃ kind, kind.from n turn e ∧ Move crypto _ kind _ := n.step_moves turn e
  exact checked_of_move hmove

/-! ## §2. Where `doAddTx` is called. -/

section

variable (crypto : Crypto)

/-- What `doAddTx` signs, and sends unless the search for the validator hangs. -/
def emission (n : Node) : Option RecordTx :=
  match n.ownTx, n.stackTransaction with
  | none, r :: _ => some { height := n.chain.height + 1, tx := n.signTx crypto r }
  | _, _ => none

/-- The state in which `stackTx` calls `doAddTx`. -/
def stackCall (n : Node) (turn : Turn) (commands : List Command) (ident : Text) : Option Node :=
  let r := stackRecord turn commands ident
  if Takes crypto n r then
    some { n with
      stackTransaction := n.stackTransaction ++ [r]
      accepted := n.accepted ++ [r] }
  else none

instance (n : Node) (turn : Turn) (publicKey ident : Text) (stake : Int) :
    Decidable (n.Leaves turn publicKey ident stake) :=
  inferInstanceAs (Decidable ((_ ∧ _) ∧ _))

/-- The state in which `proposeModifyStake` does. -/
def proposeCall (n : Node) (turn : Turn) (publicKey ident : Text) (stake : Int) : Option Node :=
  if n.Leaves turn publicKey ident stake then
    (n.queueProposal publicKey (n.credit publicKey - 1) (stakeCommand publicKey ident stake)).stackCall
      crypto turn (n.queue publicKey ident stake) []
  else none

/-- The state in which `updateCache` does. -/
def updateCall (n : Node) (turn : Turn) (b : BlockStruct) : Option Node :=
  let m := n.setChain ((n.chain.cacheBlock b).countVotes b)
  match m.chain.stakeVote b with
  | .propose publicKey => m.proposeCall crypto turn publicKey STAKE_VOTE_IDENT STAKE_VOTE_AMOUNT
  | _ => none

/-- The state in which `processStatus` does. -/
def statusCall (n : Node) (turn : Turn) (m : Message) : Option Node :=
  match m.data with
  | .status kind height =>
      if kind = ONLINE ∧ turn.pingVote = true then
        { n with toConsensus := n.toConsensus.fetchSync height }.proposeCall crypto turn m.origin
          STAKE_PING_IDENT STAKE_PING_AMOUNT
      else none
  | _ => none

/-- **The state in which a turn calls `doAddTx`**, if it does. -/
def calls (n : Node) (turn : Turn) (e : Event) : Option Node :=
  if n.halted then none
  else
    match e with
    | .stackTx commands ident => n.stackCall crypto turn commands ident
    | .message m => if validateMessage m then n.statusCall crypto turn m else none
    | .timeoutAddTx => if n.timeoutAddTx then some { n with timeoutAddTx := false } else none
    | .timeoutRetry => if n.timeoutRetry then some (n.clear none) else none
    | .resumeAdd i =>
        match n.adds[i]? with
        | none => none
        | some t =>
            match n.pending t with
            | some _ => none
            | none => n.updateCall crypto turn (n.objects t.obj)
    | _ => none

end

/-! ## §3. Nothing is signed anywhere else. -/

/-- **The line gets longer by records `R` only, and what is in flight or posted
comes from the transactions `E`.** -/
structure HandsOn (R : RecordStack → Prop) (E : RecordTx → Prop) (n m : Node) : Prop where
  line : ∀ r ∈ m.line, r ∈ n.line ∨ R r
  ownTx : ∀ own, m.ownTx = some own → n.ownTx = some own ∨ E own
  posted : ∀ msg ∈ m.posted, ∀ height tx, msg.data = .addTx height tx →
    msg ∈ n.posted ∨ E { height := height, tx := tx }

section

variable {R : RecordStack → Prop} {E : RecordTx → Prop}

theorem HandsOn.trans {k : Node} (h : HandsOn R E n m) (h' : HandsOn R E m k) :
    HandsOn R E n k := by
  refine ⟨?_, ?_, ?_⟩
  · intro r hr
    rcases h'.line r hr with hold | hnew
    · exact h.line r hold
    · exact Or.inr hnew
  · intro own hown
    rcases h'.ownTx own hown with hold | hnew
    · exact h.ownTx own hold
    · exact Or.inr hnew
  · intro msg hmsg height tx hdata
    rcases h'.posted msg hmsg height tx hdata with hold | hnew
    · exact h.posted msg hold height tx hdata
    · exact Or.inr hnew

/-- What is in flight, what waits and what has been posted. -/
def handed (n : Node) : Option RecordTx × List RecordStack × List Message :=
  (n.ownTx, n.stackTransaction, n.posted)

theorem HandsOn.of_same (h : m.handed = n.handed) : HandsOn R E n m := by
  have hown : m.ownTx = n.ownTx := congrArg Prod.fst h
  have hstack : m.stackTransaction = n.stackTransaction := congrArg (fun x => x.2.1) h
  have hposted : m.posted = n.posted := congrArg (fun x => x.2.2) h
  refine ⟨?_, ?_, ?_⟩
  · intro r hr
    rw [Node.line, hown, hstack] at hr
    exact Or.inl hr
  · intro own hslot
    exact Or.inl (hown ▸ hslot)
  · intro msg hmsg _ _ _
    exact Or.inl (hposted ▸ hmsg)

theorem HandsOn.refl (n : Node) : HandsOn R E n n := .of_same rfl

theorem HandsOn.andThen {f : Node → Node} (h : HandsOn R E n m) (hf : HandsOn R E m (f m)) :
    HandsOn R E n (m.andThen f) := by
  unfold Node.andThen
  split
  · exact h
  · exact h.trans hf

theorem handed_calcValidator (n : Node) (turn : Turn) :
    (n.calcValidator turn).handed = n.handed := by
  unfold calcValidator
  split <;> rfl

theorem handed_processAddTx (n : Node) (origin : Text) (height : Nat) (tx : TransactionStruct) :
    (n.processAddTx crypto origin height tx).handed = n.handed := by
  unfold processAddTx
  split <;> rfl

theorem handed_processProposeBlock (n : Node) (turn : Turn) (b : BlockStruct) :
    (n.processProposeBlock crypto turn b).handed = n.handed := by
  unfold processProposeBlock
  split
  · refine (andThen_frame _ handed ?_).trans (handed_calcValidator _ turn)
    intro k
    exact (k.transmit _).andThen_frame handed fun _ => rfl
  · rfl

theorem handsOn_submit (n : Node) (turn : Turn) {height : Nat} {tx : TransactionStruct}
    (h : E { height := height, tx := tx }) : HandsOn R E n (n.submit crypto turn height tx) := by
  unfold submit
  split
  · exact .of_same (n.handed_processAddTx n.chain.publicKey height tx)
  · refine HandsOn.andThen ⟨fun _ => Or.inl, fun _ => Or.inl, ?_⟩ (.of_same rfl)
    intro msg hmsg height' tx' hdata
    rcases List.mem_append.mp hmsg with hold | hnew
    · exact Or.inl hold
    · obtain rfl := List.mem_singleton.mp hnew
      obtain ⟨rfl, rfl⟩ := MessageData.addTx.inj hdata
      exact Or.inr h

/-- **`doAddTx` signs what `emission` says, and sends nothing else.** -/
theorem handsOn_doAddTx (n : Node) (turn : Turn)
    (hE : ∀ own, n.emission crypto = some own → E own) :
    HandsOn R E n (n.doAddTx crypto turn) := by
  unfold doAddTx
  split
  next r rest hown hstack =>
    set own : RecordTx := { height := n.chain.height + 1, tx := n.signTx crypto r } with hdef
    have hemission : n.emission crypto = some own := by
      rw [emission, hown, hstack]
    -- the head of the stack is in flight now: the line is the same
    have htaken : HandsOn R E n { n with stackTransaction := rest, ownTx := some own } := by
      refine ⟨?_, ?_, fun _ h _ _ _ => Or.inl h⟩
      · intro r' hr'
        refine Or.inl ?_
        rw [Node.line, hown, hstack]
        exact hr'
      · intro own' hown'
        obtain rfl := Option.some.inj hown'
        exact Or.inr (hE own hemission)
    refine (htaken.trans (.of_same (handed_calcValidator _ turn))).andThen ?_
    exact handsOn_submit _ turn (hE own hemission)
  next => exact .refl n

/-- `clear` puts the transaction in flight back, or takes it off the line. -/
theorem handsOn_clear (n : Node) (b : Option BlockStruct) : HandsOn R E n (n.clear b) := by
  refine ⟨?_, (fun _ h => nomatch h), fun _ h _ _ _ => Or.inl h⟩
  intro r hr
  refine Or.inl ?_
  unfold clear Node.line at hr
  unfold Node.line
  cases hown : n.ownTx with
  | none =>
    rw [hown] at hr
    exact hr
  | some own =>
    rw [hown] at hr
    dsimp only at hr
    split at hr
    · exact List.mem_cons_of_mem _ hr
    · exact hr

end

/-- The transactions signed in this call, if it takes place. -/
def SignedIn (crypto : Crypto) (o : Option Node) (own : RecordTx) : Prop :=
  ∃ k ∈ o, k.emission crypto = some own

section

variable (hformat : crypto.Formatted) (hcorrect : crypto.SignCorrect)
include hformat hcorrect

/-- A record that `stack` takes joins the line. -/
theorem handsOn_stackCall {l k : Node} (hl : checked n.toConsensus = checked l.toConsensus)
    {E : RecordTx → Prop} {turn : Turn} {commands : List Command} {ident : Text}
    (h : n.stackCall crypto turn commands ident = some k) :
    HandsOn (Lasts l) E n k ∧ checked k.toConsensus = checked l.toConsensus := by
  unfold stackCall at h
  dsimp only at h
  split at h
  next htakes =>
    obtain rfl := Option.some.inj h
    refine ⟨⟨?_, fun _ => Or.inl, fun _ h _ _ _ => Or.inl h⟩, hl⟩
    intro r hr
    rw [Node.line, ← List.append_assoc] at hr
    rcases List.mem_append.mp hr with hold | hnew
    · exact Or.inl hold
    · obtain rfl := List.mem_singleton.mp hnew
      exact Or.inr ((lasts_congr hl _).mp ((takes_iff hformat hcorrect).mp htakes).1)
  next => cases h

theorem handsOn_stackTx (n : Node) {l : Node} (hl : checked n.toConsensus = checked l.toConsensus)
    (turn : Turn) (commands : List Command) (ident : Text) :
    HandsOn (Lasts l) (SignedIn crypto (n.stackCall crypto turn commands ident)) n
      (n.stackTx crypto turn commands ident) := by
  by_cases htakes : Takes crypto n (stackRecord turn commands ident)
  · set k : Node := { n with
      stackTransaction := n.stackTransaction ++ [stackRecord turn commands ident]
      accepted := n.accepted ++ [stackRecord turn commands ident] }
    have hcall : n.stackCall crypto turn commands ident = some k := if_pos htakes
    have hstack : n.stackTx crypto turn commands ident = k.doAddTx crypto turn := if_pos htakes
    rw [hstack]
    exact (handsOn_stackCall hformat hcorrect hl hcall).1.trans
      (handsOn_doAddTx k turn fun own hown => ⟨k, hcall, hown⟩)
  · rw [stackTx_of_not_takes n turn htakes]
    exact .refl n

theorem handsOn_proposeModifyStake (n : Node) {l : Node}
    (hl : checked n.toConsensus = checked l.toConsensus) (turn : Turn) (publicKey ident : Text)
    (stake : Int) :
    HandsOn (Lasts l) (SignedIn crypto (n.proposeCall crypto turn publicKey ident stake)) n
      (n.proposeModifyStake crypto turn publicKey ident stake) := by
  by_cases hleaves : n.Leaves turn publicKey ident stake
  · set m := n.queueProposal publicKey (n.credit publicKey - 1) (stakeCommand publicKey ident stake)
    have hcall : n.proposeCall crypto turn publicKey ident stake
        = m.stackCall crypto turn (n.queue publicKey ident stake) [] := if_pos hleaves
    have hqueued : HandsOn (Lasts l)
        (SignedIn crypto (m.stackCall crypto turn (n.queue publicKey ident stake) [])) n m :=
      .of_same rfl
    rw [proposeModifyStake_of_leaves hleaves, hcall]
    exact (hqueued.trans (handsOn_stackTx hformat hcorrect m hl turn _ [])).andThen (.of_same rfl)
  · by_cases hqueues : n.Queues turn publicKey ident
    · rw [proposeModifyStake_of_waits hqueues hleaves]
      exact .of_same rfl
    · rw [proposeModifyStake_of_not_queues hqueues]
      exact .refl n

theorem handsOn_updateCache (n : Node) {l : Node}
    (hl : checked n.toConsensus = checked l.toConsensus) (turn : Turn) (b : BlockStruct) :
    HandsOn (Lasts l) (SignedIn crypto (n.updateCall crypto turn b)) n
      (n.updateCache crypto turn b) := by
  unfold updateCache updateCall
  dsimp only
  set m := n.setChain ((n.chain.cacheBlock b).countVotes b)
  have hm : ∀ {E}, HandsOn (Lasts l) E n m := .of_same rfl
  show HandsOn _ _ n (m.settleVote crypto turn (m.chain.stakeVote b))
  cases m.chain.stakeVote b with
  | skip => exact hm
  | throws => exact hm.trans (.of_same rfl)
  | propose publicKey =>
      have hproposed := handsOn_proposeModifyStake hformat hcorrect m hl turn publicKey
        STAKE_VOTE_IDENT STAKE_VOTE_AMOUNT
      refine (hm.trans hproposed).andThen ?_
      split
      · exact .of_same rfl
      · exact .refl _

/-- Of all messages only a status lets the node propose something. -/
theorem handsOn_processMessage (n : Node) (turn : Turn) (m : Message) :
    HandsOn (Lasts n) (SignedIn crypto (n.statusCall crypto turn m)) n
      (n.processMessage crypto turn m) := by
  have hcalc : ∀ {E}, HandsOn (Lasts n) E n (n.calcValidator turn) :=
    .of_same (handed_calcValidator n turn)
  obtain ⟨seq, origin, dest, data⟩ := m
  unfold processMessage
  cases data with
  | addTx height tx =>
      refine hcalc.andThen ?_
      split
      · exact .of_same (handed_processAddTx _ _ _ _)
      · exact .refl _
  | proposeBlock b =>
      refine hcalc.andThen ?_
      split
      · exact .of_same (handed_processProposeBlock _ _ _)
      · exact .refl _
  | signBlock hash sig =>
      refine hcalc.andThen ?_
      split
      · exact .of_same rfl
      · exact .refl _
  | confirmBlock hash votes =>
      refine hcalc.andThen ?_
      split
      · exact .of_same rfl
      · exact .refl _
  | status kind height =>
      have hfetch : ∀ {E}, HandsOn (Lasts n) E n
          { n with toConsensus := n.toConsensus.fetchSync height } := .of_same rfl
      have hchecked : checked (n.toConsensus.fetchSync height) = checked n.toConsensus :=
        checked_fetchSync n.toConsensus height
      show HandsOn _ _ n (n.processStatus crypto turn origin kind height)
      unfold processStatus statusCall
      dsimp only
      by_cases hkind : kind = ONLINE
      · by_cases hvote : turn.pingVote = true
        · rw [if_pos hkind, if_pos hvote, if_pos ⟨hkind, hvote⟩]
          exact hfetch.trans (handsOn_proposeModifyStake hformat hcorrect _ hchecked turn _ _ _)
        · rw [if_pos hkind, if_neg hvote]
          exact hfetch
      · rw [if_neg hkind]
        exact .refl n

theorem handsOn_finishAdd (n : Node) (turn : Turn) (i : Nat) (t : AddTask) :
    HandsOn (Lasts n) (SignedIn crypto (n.updateCall crypto turn (n.objects t.obj))) n
      (n.finishAdd crypto turn i t) := by
  have hupdate := handsOn_updateCache hformat hcorrect n rfl turn (n.objects t.obj)
  unfold finishAdd
  dsimp only
  split
  · exact .of_same rfl
  · set m := n.updateCache crypto turn (n.objects t.obj)
    have hfinish : ∀ {R E}, HandsOn R E m
        { m with toConsensus := m.toConsensus.finish i t m.chain } := .of_same rfl
    have hclear := (hupdate.trans hfinish).trans (handsOn_clear _ (some (n.objects t.obj)))
    exact (hclear.trans (.of_same (handed_calcValidator _ turn))).andThen (.of_same rfl)

/-- **What a turn sends comes out of `doAddTx`**, in the state `calls` says, and
what joins the line lasts. -/
theorem step_emits (n : Node) (turn : Turn) (e : Event) :
    HandsOn (Lasts n) (SignedIn crypto (n.calls crypto turn e)) n (n.step crypto turn e) := by
  by_cases hhalted : n.halted = true
  · rw [step_of_halted crypto hhalted]
    exact .refl n
  have hcalls : n.calls crypto turn e = _ := if_neg hhalted
  rw [step_of_running crypto (Bool.eq_false_iff.mpr hhalted), hcalls]
  cases e with
  | stackTx commands ident =>
      exact (handsOn_stackTx hformat hcorrect n rfl turn commands ident).trans (.of_same rfl)
  | message m =>
      rw [react]
      dsimp only
      split
      · exact handsOn_processMessage hformat hcorrect n turn m
      · exact .refl n
  | timeoutAddTx =>
      rw [react]
      dsimp only
      split
      · have hflag : ∀ {E}, HandsOn (Lasts n) E n { n with timeoutAddTx := false } := .of_same rfl
        exact hflag.trans (handsOn_doAddTx _ turn fun own hown => ⟨_, rfl, hown⟩)
      · exact .refl n
  | timeoutProposeBlock =>
      rw [react]
      dsimp only
      split
      · exact .of_same rfl
      · exact .refl n
  | timeoutRetry =>
      rw [react]
      dsimp only
      split
      · exact (handsOn_clear n none).trans (handsOn_doAddTx _ turn fun own hown => ⟨_, rfl, hown⟩)
      · exact .refl n
  -- a status carries no transaction
  | timeoutStatus =>
      refine ⟨fun _ => Or.inl, fun _ => Or.inl, ?_⟩
      intro msg hmsg height tx hdata
      rcases List.mem_append.mp hmsg with hold | hnew
      · exact Or.inl hold
      · obtain rfl := List.mem_singleton.mp hnew
        cases hdata
  | resumeAdd i =>
      rw [react, resumeAdd]
      dsimp only
      cases n.adds[i]? with
      | none => exact .refl n
      | some t =>
          dsimp only
          cases n.pending t with
          | some oc => exact .of_same rfl
          | none => exact handsOn_finishAdd hformat hcorrect n turn i t
  | syncAnswer blocks => exact .of_same rfl
  | continueSync => exact .of_same rfl
  | p2pNetwork =>
      rw [react]
      dsimp only
      split
      · exact .refl n
      · exact .of_same rfl

/-! ## §4. What waits in the line. -/

theorem handsOn_proposeCall {l k : Node} (hl : checked n.toConsensus = checked l.toConsensus)
    {E : RecordTx → Prop} {turn : Turn} {publicKey ident : Text} {stake : Int}
    (h : n.proposeCall crypto turn publicKey ident stake = some k) :
    HandsOn (Lasts l) E n k ∧ checked k.toConsensus = checked l.toConsensus := by
  unfold proposeCall at h
  split at h
  · set m := n.queueProposal publicKey (n.credit publicKey - 1)
      (stakeCommand publicKey ident stake) with hm
    have hqueued : HandsOn (Lasts l) E n m := .of_same rfl
    obtain ⟨hstack, hchecked⟩ := handsOn_stackCall hformat hcorrect (n := m) (E := E) hl h
    exact ⟨hqueued.trans hstack, hchecked⟩
  · exact nomatch h

theorem handsOn_statusCall {k : Node} {E : RecordTx → Prop} {turn : Turn} {m : Message}
    (h : n.statusCall crypto turn m = some k) :
    HandsOn (Lasts n) E n k ∧ checked k.toConsensus = checked n.toConsensus := by
  unfold statusCall at h
  split at h
  next height hdata =>
    split at h
    · have hchecked : checked (n.toConsensus.fetchSync height) = checked n.toConsensus :=
        checked_fetchSync n.toConsensus height
      have hfetch : HandsOn (Lasts n) E n
          { n with toConsensus := n.toConsensus.fetchSync height } := .of_same rfl
      obtain ⟨hpropose, hsame⟩ := handsOn_proposeCall hformat hcorrect (E := E) hchecked h
      exact ⟨hfetch.trans hpropose, hsame⟩
    · exact nomatch h
  next => exact nomatch h

theorem handsOn_updateCall {k : Node} {E : RecordTx → Prop} {turn : Turn} {b : BlockStruct}
    (h : n.updateCall crypto turn b = some k) :
    HandsOn (Lasts n) E n k ∧ checked k.toConsensus = checked n.toConsensus := by
  unfold updateCall at h
  dsimp only at h
  split at h
  next publicKey hvote =>
    set m := n.setChain ((n.chain.cacheBlock b).countVotes b)
    have hset : HandsOn (Lasts n) E n m := .of_same rfl
    have hchecked : checked m.toConsensus = checked n.toConsensus := rfl
    obtain ⟨hpropose, hsame⟩ := handsOn_proposeCall hformat hcorrect (E := E) hchecked h
    exact ⟨hset.trans hpropose, hsame⟩
  next => exact nomatch h

/-- **The line in which `doAddTx` finds its record.** -/
theorem handsOn_calls {k : Node} {turn : Turn} {e : Event} {E : RecordTx → Prop}
    (h : n.calls crypto turn e = some k) :
    HandsOn (Lasts n) E n k ∧ checked k.toConsensus = checked n.toConsensus := by
  unfold calls at h
  split at h
  · exact nomatch h
  cases e with
  | stackTx commands ident => exact handsOn_stackCall hformat hcorrect rfl h
  | message m =>
      dsimp only at h
      split at h
      · exact handsOn_statusCall hformat hcorrect h
      · exact nomatch h
  | timeoutAddTx =>
      dsimp only at h
      split at h
      · obtain rfl := Option.some.inj h
        exact ⟨.of_same rfl, rfl⟩
      · exact nomatch h
  | timeoutRetry =>
      dsimp only at h
      split at h
      · obtain rfl := Option.some.inj h
        exact ⟨handsOn_clear n none, rfl⟩
      · exact nomatch h
  | resumeAdd i =>
      dsimp only at h
      cases ht : n.adds[i]? with
      | none =>
          rw [ht] at h
          exact nomatch h
      | some t =>
          rw [ht] at h
          dsimp only at h
          cases hp : n.pending t with
          | some oc =>
              rw [hp] at h
              exact nomatch h
          | none =>
              rw [hp] at h
              exact handsOn_updateCall hformat hcorrect h
  | timeoutProposeBlock => exact nomatch h
  | timeoutStatus => exact nomatch h
  | syncAnswer blocks => exact nomatch h
  | continueSync => exact nomatch h
  | p2pNetwork => exact nomatch h

/-- **Whatever waits in the line lasts**: one turn. -/
theorem line_lasts (turn : Turn) (e : Event) (h : ∀ r ∈ n.line, Lasts n r) :
    ∀ r ∈ (n.step crypto turn e).line, Lasts (n.step crypto turn e) r := by
  intro r hr
  rw [lasts_congr (checked_step n turn e)]
  rcases (step_emits hformat hcorrect n turn e).line r hr with hold | hnew
  · exact h r hold
  · exact hnew

/-! ## §5. What is emitted in a run. -/

end

section

variable (crypto : Crypto)

/-- What `doAddTx` signs in this turn passes `validateTx` on the ledger of the node. -/
def EmitsValid (n : Node) (turn : Turn) (e : Event) : Prop :=
  ∀ k ∈ n.calls crypto turn e, ∀ own ∈ k.emission crypto,
    validateTx crypto k.chain.toLedger own.height own.tx = true

/-- What `doAddTx` takes from the stack in this turn holds no decision for a
height that has passed. -/
def InTime (n : Node) (turn : Turn) (e : Event) : Prop :=
  ∀ k ∈ n.calls crypto turn e, k.ownTx = none →
    ∀ r ∈ k.stackTransaction.head?, r.expired (k.chain.height + 1) = false

instance (n : Node) (turn : Turn) (e : Event) : Decidable (EmitsValid crypto n turn e) :=
  inferInstanceAs (Decidable (∀ k ∈ n.calls crypto turn e, ∀ own ∈ k.emission crypto, _ = true))

instance (n : Node) (turn : Turn) (e : Event) : Decidable (InTime crypto n turn e) :=
  inferInstanceAs (Decidable (∀ k ∈ n.calls crypto turn e, k.ownTx = none →
    ∀ r ∈ k.stackTransaction.head?, _ = false))

end

section

variable (hformat : crypto.Formatted) (hcorrect : crypto.SignCorrect)
include hformat hcorrect

/-- A record that lasts is valid at every height at which it is not too late. -/
theorem emission_valid_iff (h : ∀ r ∈ n.line, Lasts n r) :
    (∀ own ∈ n.emission crypto, validateTx crypto n.chain.toLedger own.height own.tx = true)
      ↔ (n.ownTx = none → ∀ r ∈ n.stackTransaction.head?, r.expired (n.chain.height + 1) = false) := by
  cases hown : n.ownTx with
  | some own =>
    rw [emission, hown]
    exact ⟨fun _ hnone => (nomatch hnone), fun _ own' hnone => (nomatch hnone)⟩
  | none =>
    cases hstack : n.stackTransaction with
    | nil =>
      rw [emission, hown, hstack]
      exact ⟨fun _ _ r hr => (nomatch hr), fun _ own hnone => (nomatch hnone)⟩
    | cons r rest =>
      have hmem : r ∈ n.line := by
        rw [Node.line, hown, hstack]
        exact List.mem_cons_self
      set own : RecordTx := { height := n.chain.height + 1, tx := n.signTx crypto r } with hdef
      have hemission : n.emission crypto = some own := by
        rw [emission, hown, hstack]
      have htakes : validateTx crypto n.chain.toLedger own.height own.tx = true
          ↔ Lasts n r ∧ r.expired (n.chain.height + 1) = false := takes_iff hformat hcorrect
      rw [hemission]
      constructor
      · intro hvalid _ r' hr'
        obtain rfl := Option.some.inj hr'
        exact (htakes.mp (hvalid own rfl)).2
      · intro hfresh own' hsigned
        obtain rfl := Option.some.inj hsigned
        exact htakes.mpr ⟨h r hmem, hfresh rfl r rfl⟩

theorem emitsValid_iff (h : ∀ r ∈ n.line, Lasts n r) (turn : Turn) (e : Event) :
    EmitsValid crypto n turn e ↔ InTime crypto n turn e := by
  have hcall : ∀ k ∈ n.calls crypto turn e, ∀ r ∈ k.line, Lasts k r := by
    intro k hk r hr
    obtain ⟨hline, hchecked⟩ :=
      handsOn_calls hformat hcorrect (E := fun _ => False) hk
    rw [lasts_congr hchecked]
    rcases hline.line r hr with hold | hnew
    · exact h r hold
    · exact hnew
  unfold EmitsValid InTime
  constructor
  · intro hvalid k hk
    exact (emission_valid_iff hformat hcorrect (hcall k hk)).mp (hvalid k hk)
  · intro hfresh k hk
    exact (emission_valid_iff hformat hcorrect (hcall k hk)).mpr (hfresh k hk)

theorem emitted_valid_from (l : List (Turn × Event)) :
    ∀ {n : Node}, (∀ r ∈ n.line, Lasts n r) →
      (Allowed crypto (EmitsValid crypto) n l ↔ Allowed crypto (InTime crypto) n l) := by
  induction l with
  | nil => exact fun _ => Iff.rfl
  | cons x l ih =>
    intro n h
    have hrest := ih (line_lasts hformat hcorrect x.1 x.2 h)
    exact and_congr (emitsValid_iff hformat hcorrect h x.1 x.2) hrest

end

/-- **What is emitted in a run is valid exactly if it is in time.**  At every
turn of the run whatever `doAddTx` signs passes `validateTx` on the ledger of
the node, if and only if `doAddTx` never takes a record from the stack with a
decision for a height that has passed. -/
theorem emitted_valid_iff (hformat : crypto.Formatted) (hcorrect : crypto.SignCorrect)
    (chain : Blockchain) (l : List (Turn × Event)) :
    Allowed crypto (EmitsValid crypto) (start chain) l
      ↔ Allowed crypto (InTime crypto) (start chain) l :=
  emitted_valid_from hformat hcorrect l fun _ hr => nomatch hr

/-! ## §6. A decision that is taken back. -/

open Blockchain (sampleStart proposalTx proposal)

/-- A decision for the height. -/
def decisionCommands (h : Int) : List Command :=
  [{ seq := 1
     body := .decision ['t', 'e', 's', 't', ':', 'a'] h ['y']
     keys := [.seq, .command, .ns, .h, .d] }]

/-- A block of peer 1, which has no transaction of peer 0. -/
def otherBlock (votes : List Nat) : BlockStruct :=
  { version := BLOCK_VERSION
    previousHash := label 43 0
    hash := label 43 1
    tx := [proposalTx 1 ['a'] 12]
    height := 2
    votes := votes.map fun i => { origin := keyOf i, sig := label 86 (i + 3) } }

/-- Labels for what is hashed and signed here, and one more for everything else. -/
def decisionCrypto (h : Int) : Crypto :=
  let hashes := [genesisText 3, hashText BLOCK_VERSION (label 43 0) (otherBlock []).tx 2]
  let sigs := [(keyOf 0, signedText 2 (decisionCommands h)),
    (keyOf 1, signedText 2 [proposal (keyOf 0) ['a'] 12]),
    (keyOf 0, signedText 3 (decisionCommands h)), (keyOf 0, label 43 1), (keyOf 1, label 43 1),
    (keyOf 2, label 43 1)]
  { hash := fun d => label 43 (hashes.idxOf d)
    sign := fun pk d => label 86 (sigs.idxOf (pk, d))
    verifySignature := fun pk sig d => decide (sig = label 86 (sigs.idxOf (pk, d))) }

theorem decisionCrypto_formatted (h : Int) : (decisionCrypto h).Formatted := by
  have hkeys : ∀ i < 3, isKeyText (label 43 i) = true := by decide +kernel
  have hsigs : ∀ i < 7, isSigText (label 86 i) = true := by decide +kernel
  refine ⟨fun d => hkeys _ ?_, fun pk d => hsigs _ ?_⟩
  · exact Nat.lt_succ_of_le List.idxOf_le_length
  · exact Nat.lt_succ_of_le List.idxOf_le_length

theorem decisionCrypto_signCorrect (h : Int) : (decisionCrypto h).SignCorrect :=
  fun _ _ => decide_eq_true rfl

/-- Peer 0 stacks a decision, the block of peer 1 comes first, and the decision
is signed again. -/
def decisionTurns (h : Int) : List (Turn × Event) :=
  [(allOnline, .p2pNetwork), (allOnline, .stackTx (decisionCommands h) ['t']),
    (allOnline, .message (messageOf 1 (.proposeBlock (otherBlock [1])))),
    (allOnline, .message (messageOf 1 (.confirmBlock (label 43 1) (otherBlock [1, 2]).votes))),
    (allOnline, .resumeAdd 0), (allOnline, .resumeAdd 0), (allOnline, .timeoutAddTx)]

/-- For height 3 it is in time. -/
theorem emitted_valid_of_sample :
    ((start (sampleStart 0)).run (decisionCrypto 3) (decisionTurns 3)).ownTx.map RecordTx.height
        = some 3
      ∧ Allowed (decisionCrypto 3) (EmitsValid (decisionCrypto 3)) (start (sampleStart 0))
        (decisionTurns 3) := by
  have hintime : Allowed (decisionCrypto 3) (InTime (decisionCrypto 3)) (start (sampleStart 0))
      (decisionTurns 3) := by
    decide +kernel
  refine ⟨by decide +kernel, ?_⟩
  exact (emitted_valid_iff (decisionCrypto_formatted 3) (decisionCrypto_signCorrect 3) _ _).mpr
    hintime

/-- **For height 2 it is too late**: `stack` has taken it, and it is signed for
height 3. -/
theorem emitted_too_late :
    (((start (sampleStart 0)).run (decisionCrypto 2) (decisionTurns 2)).accepted
        = [{ ident := ['t'], commands := decisionCommands 2 }])
      ∧ ¬ Allowed (decisionCrypto 2) (EmitsValid (decisionCrypto 2)) (start (sampleStart 0))
        (decisionTurns 2) := by
  refine ⟨by decide +kernel, by decide +kernel⟩

end Node

end Divachain
