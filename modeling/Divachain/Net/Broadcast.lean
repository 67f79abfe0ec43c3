/-
  Divachain.Net.Broadcast — does `broadcast` look up peers only?

  `arrayBroadcast` is a snapshot of the peer table, and between two snapshots
  every block may remove a peer.  The receiver of a relayed message is chosen by
  its sender.  `Fresh` is the invariant between the two clocks: a key of the
  snapshot that is no peer's has been removed since, and has not come back.

  Main results:
    * `ledger_react` — a turn of a node changes its ledger by one command at
      most, and broadcasts nothing then;
    * `sends_known` — a run in which no call meets a departed peer or a stranger
      never throws, and the next turn throws if and only if one of its calls does.
-/
import Divachain.Net.Malformed
import Divachain.Net.Moves

namespace Divachain

open DataKit

/-! ## §1. The ledger of a turn. -/

namespace Consensus

variable {crypto : Crypto} (c : Consensus)

theorem toLedger_startAdd (obj : Nat) (fromSync : Bool) :
    (c.startAdd crypto obj fromSync).chain.toLedger = c.chain.toLedger := by
  rcases c.startAdd_cases crypto obj fromSync with ⟨-, hstep⟩ | ⟨-, hstep⟩
  · rw [hstep]
    rfl
  · rw [hstep]

theorem toLedger_processSignBlock (now : Nat) (origin hash sig : Text) :
    (c.processSignBlock crypto now origin hash sig).chain.toLedger = c.chain.toLedger := by
  rcases c.processSignBlock_cases crypto now origin hash sig with
    ⟨-, hstep⟩ | ⟨obj, -, ⟨-, hstep⟩ | ⟨-, hstep⟩⟩
  · rw [hstep]
  · rw [hstep]
    rfl
  · rw [hstep]
    exact toLedger_startAdd (c.pushVote obj { origin := origin, sig := sig }) obj false

theorem toLedger_approve (now : Nat) (validator hash : Text) :
    (c.approve crypto now validator hash).chain.toLedger = c.chain.toLedger := by
  rcases c.approve_cases crypto now validator hash with ⟨-, hstep⟩ | ⟨-, hstep⟩
  · rw [hstep]
    exact toLedger_processSignBlock (c.sign hash) now _ hash _
  · rw [hstep]
    rfl

theorem toLedger_processConfirmBlock (hash : Text) (votes : List VoteStruct) :
    (c.processConfirmBlock crypto hash votes).chain.toLedger = c.chain.toLedger := by
  rcases c.processConfirmBlock_cases crypto hash votes with hstep | ⟨obj, -, -, -, hstep⟩
  · rw [hstep]
  · rw [hstep]
    exact toLedger_startAdd (c.write obj { c.objects obj with votes := votes }) obj false

theorem toLedger_fetchSync (height : Nat) :
    (c.fetchSync height).chain.toLedger = c.chain.toLedger := by
  rcases c.fetchSync_cases height with hstep | hstep
  · rw [hstep]
  · rw [hstep]

theorem toLedger_continueSync : (c.continueSync crypto).chain.toLedger = c.chain.toLedger := by
  rcases c.continueSync_cases crypto with hstep | ⟨sync, -, hstep⟩ | ⟨b, blocks, -, -, hstep⟩
  · rw [hstep]
  · rw [hstep]
  · rw [hstep]
    exact toLedger_startAdd (c.alloc b) c.next true

end Consensus

namespace Node

variable {crypto : Crypto} (n : Node) (turn : Turn)

theorem toLedger_andThen {f : Node → Node}
    (h : ∀ m, (f m).chain.toLedger = m.chain.toLedger) :
    (n.andThen f).chain.toLedger = n.chain.toLedger := by
  unfold andThen
  split
  · rfl
  · exact h n

theorem toLedger_calcValidator : (n.calcValidator turn).chain.toLedger = n.chain.toLedger :=
  congrArg (fun c => c.chain.toLedger) (n.calcValidator_toConsensus turn)

theorem toLedger_doAddTx : (n.doAddTx crypto turn).chain.toLedger = n.chain.toLedger :=
  congrArg (fun c => c.chain.toLedger) (n.doAddTx_toConsensus turn)

theorem toLedger_processStatus (origin : Text) (kind height : Nat) :
    (n.processStatus crypto turn origin kind height).chain.toLedger = n.chain.toLedger := by
  unfold processStatus
  dsimp only
  split
  · have hfetch := n.toConsensus.toLedger_fetchSync height
    split
    · rw [proposeModifyStake_toConsensus]
      exact hfetch
    · exact hfetch
  · rfl

theorem toLedger_processProposeBlock (b : BlockStruct) :
    (n.processProposeBlock crypto turn b).chain.toLedger = n.chain.toLedger := by
  unfold processProposeBlock
  split
  · rw [toLedger_andThen, toLedger_calcValidator]
    · rfl
    · intro m
      rw [toLedger_andThen (f := setupRetry) _ fun _ => rfl]
      exact Consensus.toLedger_approve m.toConsensus turn.now m.validator b.hash
  · rfl

/-- A message applies nothing. -/
theorem toLedger_processMessage (m : Message) :
    (n.processMessage crypto turn m).chain.toLedger = n.chain.toLedger := by
  unfold processMessage
  cases m.data with
  -- In each case the validator is worked out first, which leaves the ledger alone.
  | addTx height tx =>
      rw [toLedger_andThen, toLedger_calcValidator]
      intro k
      split
      · exact congrArg (fun c => c.chain.toLedger) (k.processAddTx_toConsensus _ _ _)
      · rfl
  | proposeBlock b =>
      rw [toLedger_andThen, toLedger_calcValidator]
      intro k
      split
      · exact k.toLedger_processProposeBlock turn b
      · rfl
  | signBlock hash sig =>
      rw [toLedger_andThen, toLedger_calcValidator]
      intro k
      split
      · exact Consensus.toLedger_processSignBlock k.toConsensus turn.now m.origin hash sig
      · rfl
  | confirmBlock hash votes =>
      rw [toLedger_andThen, toLedger_calcValidator]
      intro k
      split
      · exact Consensus.toLedger_processConfirmBlock k.toConsensus hash votes
      · rfl
  | status kind height => exact n.toLedger_processStatus turn m.origin kind height

/-- Neither does the end of a call of `add`. -/
theorem toLedger_finishAdd (i : Nat) (t : AddTask) :
    (n.finishAdd crypto turn i t).chain.toLedger = n.chain.toLedger := by
  unfold finishAdd
  dsimp only
  split
  · rfl
  next hrun =>
    rw [Bool.not_eq_true] at hrun
    obtain ⟨answer, chain, hchain, hcore⟩ := updateCache_toConsensus n turn hrun
    rw [toLedger_andThen, toLedger_calcValidator]
    · show (n.updateCache crypto turn (n.objects t.obj)).chain.toLedger = _
      rw [hcore]
      exact (Blockchain.updateCache_spec hchain).ledger
    · intro m
      rfl

/-- What the command of a turn does to the ledger. -/
def appliedTo (l : Ledger) : Option (Text × Command) → Ledger
  | some oc => l.apply oc
  | none => l

/-- **A turn changes the ledger by one command at most.** -/
theorem ledger_react (e : Event) :
    (n.react crypto turn e).chain.toLedger = appliedTo n.chain.toLedger (n.applied e) := by
  cases e with
  | stackTx commands ident =>
      exact congrArg (fun c => c.chain.toLedger) (n.stackTx_toConsensus turn commands ident)
  | message m =>
      rw [react]
      split
      · exact n.toLedger_processMessage turn m
      · rfl
  -- Sending and proposing touch the consensus and the own line, never the ledger.
  | timeoutAddTx =>
      rw [react]
      split
      · exact toLedger_doAddTx { n with timeoutAddTx := false } turn
      · rfl
  | timeoutProposeBlock =>
      rw [react]
      split <;> rfl
  | timeoutRetry =>
      rw [react]
      split
      · exact (n.clear none).toLedger_doAddTx turn
      · rfl
  | timeoutStatus => rfl
  -- The one event that applies a command: the next one of the task, if any is pending.
  | resumeAdd i =>
      rw [react, resumeAdd, applied]
      cases hi : n.adds[i]? with
      | none => rfl
      | some t =>
          cases hp : n.pending t with
          | none =>
              dsimp only
              rw [Option.bind_some, hp]
              exact n.toLedger_finishAdd turn i t
          | some oc =>
              dsimp only
              rw [Option.bind_some, hp]
              rfl
  | syncAnswer blocks =>
      show (n.toConsensus.answerSync blocks).chain.toLedger = _
      rcases n.toConsensus.answerSync_cases blocks with hstep | hstep
      · rw [hstep]
        rfl
      · rw [hstep]
        rfl
  | continueSync => exact Consensus.toLedger_continueSync n.toConsensus
  | p2pNetwork =>
      rw [react]
      split <;> rfl

end Node

/-! ## §2. The peers of a ledger and of a snapshot. -/

/-- **Between two snapshots**: a key of the snapshot is a peer's, or its peer has
departed since; and those who have departed are no peers. -/
structure Fresh (l : Ledger) (snapshot departed : List Text) : Prop where
  known : ∀ pk ∈ snapshot, pk ∈ departed ∨ l.hasPeer pk = true
  gone : ∀ pk ∈ departed, l.hasPeer pk = false

namespace Fresh

/-- Only the peers matter. -/
theorem congr {l l' : Ledger} {snapshot departed : List Text} (h : Fresh l snapshot departed)
    (hpeers : ∀ pk, l'.hasPeer pk = l.hasPeer pk) : Fresh l' snapshot departed := by
  refine ⟨?_, ?_⟩
  · intro pk hpk
    rw [hpeers]
    exact h.known pk hpk
  · intro pk hpk
    rw [hpeers]
    exact h.gone pk hpk

theorem join {l : Ledger} {snapshot departed : List Text} (h : Fresh l snapshot departed)
    (http udp publicKey : Text) :
    Fresh (l.join http udp publicKey) snapshot
      (departed.filter fun pk => decide (pk ≠ publicKey)) := by
  refine ⟨?_, ?_⟩
  · intro pk hpk
    rw [Ledger.hasPeer_join, List.mem_filter]
    by_cases heq : pk = publicKey
    · exact Or.inr (by simp [heq])
    · rcases h.known pk hpk with hgone | hpeer
      · exact Or.inl ⟨hgone, decide_eq_true heq⟩
      · exact Or.inr (by simp [hpeer])
  · intro pk hpk
    obtain ⟨hgone, hne⟩ := List.mem_filter.mp hpk
    rw [Ledger.hasPeer_join, h.gone pk hgone, decide_eq_false (of_decide_eq_true hne)]
    rfl

/-- A peer that is there has not departed. -/
theorem filter_departed {l : Ledger} {snapshot departed : List Text} (h : Fresh l snapshot departed)
    {publicKey : Text} (hhas : l.hasPeer publicKey = true) :
    (departed.filter fun pk => decide (pk ≠ publicKey)) = departed := by
  refine List.filter_eq_self.mpr ?_
  intro pk hpk
  refine decide_eq_true ?_
  rintro rfl
  rw [h.gone pk hpk] at hhas
  exact nomatch hhas

theorem leave {l : Ledger} {snapshot departed : List Text} (h : Fresh l snapshot departed)
    (publicKey : Text) (peer : Peer) :
    Fresh (l.leave publicKey peer) snapshot (departed ++ [publicKey]) := by
  refine ⟨?_, ?_⟩
  · intro pk hpk
    rw [Ledger.hasPeer_leave, List.mem_append, List.mem_singleton]
    rcases h.known pk hpk with hgone | hpeer
    · exact Or.inl (Or.inl hgone)
    · by_cases heq : pk = publicKey
      · exact Or.inl (Or.inr heq)
      · exact Or.inr (by simp [hpeer, heq])
  · intro pk hpk
    rw [Ledger.hasPeer_leave]
    rcases List.mem_append.mp hpk with hpk | hpk
    · rw [h.gone pk hpk, Bool.and_false]
    · simp [List.mem_singleton.mp hpk]

/-- **A command keeps the record of departures true.** -/
theorem apply {l : Ledger} {snapshot departed : List Text} (h : Fresh l snapshot departed)
    (oc : Text × Command) :
    Fresh (l.apply oc) snapshot (Network.departure l departed oc.2) := by
  unfold Network.departure
  have hchange := l.change_apply oc
  generalize l.apply oc = l', oc.2.body = body at hchange ⊢
  cases hchange with
  | none hpassed =>
      -- A peer that is added again is no longer departed, and one that never joined
      -- cannot depart.
      cases body with
      | addPeer http udp publicKey =>
          dsimp only
          rw [h.filter_departed hpassed]
          exact h
      | removePeer publicKey =>
          have hhas : l.hasPeer publicKey = false := (OrdMap.has_eq_false_iff _ _).mpr hpassed
          dsimp only
          rw [hhas]
          exact h
      | modifyStake publicKey ident stake => exact h
      | data ns d => exact h
      | decision ns height d => exact h
  | join _ => exact h.join _ _ _
  | @leave publicKey peer hpeer =>
      have hhas : l.hasPeer publicKey = true := by
        rw [Ledger.hasPeer, OrdMap.has, hpeer]
        rfl
      dsimp only
      rw [if_pos hhas]
      exact h.leave publicKey peer
  | tally _ => exact h.congr fun _ => rfl
  | effect heffect => exact h.congr (Ledger.hasPeer_effect heffect.peer_eq)
  | data => exact h.congr fun _ => rfl
  | decision _ => exact h.congr fun _ => rfl

end Fresh

/-! ## §3. The snapshot of a run. -/

namespace Network

variable (crypto : Crypto) (codec : Codec)

/-- A datagram carries a message that its origin has signed and that the schemas
admit; other turns are all fine. -/
def Authentic : Event → Prop
  | .datagram data _ => ∃ j, unpacked crypto codec data = some j ∧ Matches j
  | _ => True

/-- Every key the call looks up is a peer's. -/
def Known (net : Network) (call : Call) : Prop :=
  ∀ pk ∈ net.addressees call.1 call.2, net.chain.mapPeer.has pk = true

/-- A relayed message with a receiver names a peer or its own origin; any other
message meets nobody who has departed, its origin apart. -/
def Current (net : Network) (call : Call) : Prop :=
  if call.2 = true ∧ call.1.dest ≠ [] then
    call.1.dest = call.1.origin ∨ net.chain.hasPeer call.1.dest = true
  else ∀ pk ∈ net.departed, pk ∈ net.arrayBroadcast → pk = call.1.origin

instance (net : Network) (call : Call) : Decidable (net.Current call) :=
  inferInstanceAs (Decidable (if call.2 = true ∧ call.1.dest ≠ [] then
    call.1.dest = call.1.origin ∨ net.chain.hasPeer call.1.dest = true
  else ∀ pk ∈ net.departed, pk ∈ net.arrayBroadcast → pk = call.1.origin))

/-- The turn is authentic, and its calls are current. -/
def Meets (net : Network) (turn : Turn) (e : Event) : Prop :=
  Authentic crypto codec e
    ∧ ∀ call ∈ net.calls crypto codec turn e, (net.react crypto codec turn e).1.Current call

/-- The invariant of the two clocks. -/
structure InStep (net : Network) : Prop where
  keyed : Keyed net.chain.toLedger
  fresh : Fresh net.chain.toLedger net.arrayBroadcast net.departed

variable {crypto codec} {net : Network}

theorem InStep.congr {net' : Network} (h : InStep net)
    (hledger : net'.chain.toLedger = net.chain.toLedger)
    (hsnapshot : net'.arrayBroadcast = net.arrayBroadcast)
    (hdeparted : net'.departed = net.departed) : InStep net' := by
  refine ⟨?_, ?_⟩
  · rw [hledger]
    exact h.keyed
  · rw [hledger, hsnapshot, hdeparted]
    exact h.fresh

/-- **In step, a call is known exactly if it is current.** -/
theorem known_iff_current (h : InStep net) (call : Call) : net.Known call ↔ net.Current call := by
  unfold Known Current addressees
  -- A direct relay goes to its destination alone, everything else to the snapshot.
  by_cases hrelay : call.2 = true ∧ call.1.dest ≠ []
  · rw [if_pos hrelay, if_pos hrelay]
    by_cases hself : call.1.dest = call.1.origin
    · simp [hself]
    · rw [if_pos hself]
      simp only [List.mem_singleton, forall_eq, hself, false_or]
      exact Iff.rfl
  · rw [if_neg hrelay, if_neg hrelay]
    constructor
    · intro hknown pk hgone hmem
      by_contra hne
      have hhas : net.chain.hasPeer pk = true :=
        hknown pk (List.mem_filter.mpr ⟨hmem, decide_eq_true (Ne.symm hne)⟩)
      rw [h.fresh.gone pk hgone] at hhas
      cases hhas
    · intro hcurrent pk hpk
      obtain ⟨hmem, hne⟩ := List.mem_filter.mp hpk
      -- A peer of the snapshot is known or has departed since, and not both.
      rcases h.fresh.known pk hmem with hgone | hhas
      · exact absurd (hcurrent pk hgone hmem).symm (of_decide_eq_true hne)
      · exact hhas

/-- A turn of the node keeps its snapshot in step with the ledger. -/
theorem inStep_nodeTurn (h : InStep net) (hrun : net.halted = false) (turn : Turn)
    (e : Node.Event) : InStep (net.nodeTurn crypto turn e).1 := by
  have hledger : (net.toNode.step crypto (net.view turn) e).chain.toLedger
      = Node.appliedTo net.chain.toLedger (net.toNode.applied e) := by
    rw [Node.step_of_running crypto hrun]
    exact net.toNode.ledger_react (net.view turn) e
  refine ⟨?_, ?_⟩
  · show Keyed (net.toNode.step crypto (net.view turn) e).chain.toLedger
    rw [hledger]
    cases net.toNode.applied e with
    | none => exact h.keyed
    | some oc => exact h.keyed.apply oc
  · show Fresh (net.toNode.step crypto (net.view turn) e).chain.toLedger net.arrayBroadcast
      ((net.toNode.applied e).elim net.departed fun oc =>
        departure net.chain.toLedger net.departed oc.2)
    rw [hledger]
    cases net.toNode.applied e with
    | none => exact h.fresh
    | some oc => exact h.fresh.apply oc

/-- A message applies nothing. -/
theorem inStep_deliver (h : InStep net) (turn : Turn) (data : Bytes) (pk : Text) (m : Message) :
    InStep (net.deliver crypto turn data pk m) := by
  refine h.congr ?_ rfl rfl
  show (Node.step crypto _ _ (.message m)).chain.toLedger = _
  unfold Node.step Node.andThen
  split
  · rfl
  · exact Node.ledger_react _ _ (.message m)

theorem inStep_incoming (h : InStep net) (turn : Turn) (data : Bytes) (sender : Text) :
    InStep (net.incoming crypto codec turn data sender).1 := by
  unfold incoming
  split
  · exact h
  dsimp only
  split
  · exact h
  split
  · exact h.congr rfl rfl rfl
  · exact h
  next m _ =>
    unfold receive
    split
    · exact inStep_deliver h turn data _ m
    · exact h

/-- **A new snapshot has the peers of the ledger.** -/
theorem inStep_renew (h : InStep net) (hrun : net.halted = false)
    (hsize : ¬ net.chain.mapPeer.size < 2) (turn : Turn) (random : Nat → Nat) :
    InStep (net.renew crypto turn random) := by
  obtain ⟨hchain, hperm⟩ := renew_spec crypto net hrun hsize turn random
  have hledger : (net.renew crypto turn random).chain.toLedger = net.chain.toLedger :=
    congrArg Blockchain.toLedger hchain
  refine ⟨hledger ▸ h.keyed, ?_, fun _ hpk => nomatch hpk⟩
  intro pk hpk
  right
  rw [hledger]
  have hpeer := (List.mem_filter.mp (hperm.mem_iff.mp hpk)).1
  obtain ⟨peer, hvalue, rfl⟩ := List.mem_map.mp hpeer
  obtain ⟨e, he, rfl⟩ := List.mem_map.mp hvalue
  have hget := (OrdMap.get?_eq_some_iff net.chain.mapPeer e.1 e.2).mpr he
  have hkey := h.keyed e.1 e.2 hget
  show net.chain.mapPeer.has e.2.publicKey = true
  rw [hkey]
  exact (OrdMap.has_iff _ _).mpr (List.mem_map_of_mem he)

theorem inStep_react (h : InStep net) (hrun : net.halted = false) (turn : Turn) (e : Event) :
    InStep (net.react crypto codec turn e).1 := by
  unfold react
  split
  · exact h
  · exact h
  next e _ _ => exact inStep_nodeTurn h hrun turn e
  next data sender => exact inStep_incoming h turn data sender
  next samReady random =>
    split
    · exact h
    next hready =>
      rw [not_or] at hready
      exact inStep_renew h hrun hready.1 turn random
  · exact h.congr rfl rfl rfl

/-- **Every turn keeps the snapshot in step.**  Broadcasting changes no peer and
no snapshot. -/
theorem inStep_step (h : InStep net) (turn : Turn) (e : Event) :
    InStep (net.step crypto codec turn e) := by
  unfold step
  split
  · exact h
  next hstop =>
    have hrun : net.halted = false := by
      rw [← Bool.not_eq_true]
      exact fun hhalt => hstop (Or.inr (Or.inl hhalt))
    have hsame := sameBut_broadcastAll (net.react crypto codec turn e).1
      (net.react crypto codec turn e).2
    refine (inStep_react h hrun turn e).congr ?_ hsame.arrayBroadcast hsame.departed
    show ((net.react crypto codec turn e).1.broadcastAll _).chain.toLedger = _
    rw [hsame.node]

/-- An authentic turn throws in `broadcast` only. -/
theorem react_raised (hraised : net.raised = false) (turn : Turn) {e : Event}
    (he : Authentic crypto codec e) : (net.react crypto codec turn e).1.raised = false := by
  unfold react
  split
  · exact hraised
  · exact hraised
  · exact hraised
  -- An authentic datagram passes the check, so the branch that throws is not taken.
  next data sender =>
    obtain ⟨j, hj, m, hm⟩ := he
    have hvalid : validateUnpacked (unpack crypto codec data) = some (some m) := by
      rw [unpack, hj]
      exact (validateUnpacked_eq_some_iff j m).mpr hm
    unfold incoming
    split
    · exact hraised
    dsimp only
    split
    · exact hraised
    rw [hvalid]
    dsimp only
    unfold receive
    split
    · exact hraised
    · exact hraised
  · split
    · exact hraised
    · exact hraised
  · exact hraised

/-- The record of exceptions is written at the end of a turn. -/
theorem react_thrown (turn : Turn) (e : Event) :
    (net.react crypto codec turn e).1.thrown = net.thrown := by
  unfold react
  split
  · rfl
  · rfl
  · rfl
  next data sender =>
    unfold incoming
    split
    · rfl
    dsimp only
    split
    · rfl
    split
    · rfl
    · rfl
    · unfold receive
      split <;> rfl
  · split <;> rfl
  · rfl

/-- An exception that has ended the process has been thrown. -/
theorem Reaches.thrown_of_raised {ok : Network → Turn → Event → Prop} {chain : Blockchain}
    {interval : Nat} (h : Reaches crypto codec ok (start chain interval) net)
    (hraised : net.raised = true) : net.thrown = true := by
  induction h with
  | refl => exact nomatch hraised
  | @step net _ turn e _ ih =>
      unfold Network.step at hraised ⊢
      split at hraised
      next hstop =>
        rw [if_pos hstop]
        exact ih hraised
      next hstop =>
        rw [if_neg hstop]
        exact Bool.or_eq_true_iff.mpr (Or.inr (Bool.and_eq_true_iff.mp hraised).1)

theorem Reaches.not_raised {ok : Network → Turn → Event → Prop} {chain : Blockchain}
    {interval : Nat} (h : Reaches crypto codec ok (start chain interval) net)
    (hthrown : net.thrown = false) : net.raised = false := by
  rw [← Bool.not_eq_true]
  intro hraised
  exact Bool.false_ne_true (hthrown.symm.trans (h.thrown_of_raised hraised))

/-- What one turn does to the invariant, and when it throws. -/
structure Stepped (crypto : Crypto) (codec : Codec) (net : Network) (turn : Turn) (e : Event) :
    Prop where
  inStep : InStep (net.step crypto codec turn e)
  known_iff : ∀ call ∈ net.calls crypto codec turn e,
    ((net.react crypto codec turn e).1.Known call ↔ (net.react crypto codec turn e).1.Current call)
  thrown_iff : (net.step crypto codec turn e).thrown = false
    ↔ ∀ call ∈ net.calls crypto codec turn e, (net.react crypto codec turn e).1.Known call

/-- **One turn** keeps the snapshot in step, and throws exactly if one of its calls
looks up a stranger. -/
theorem stepped (h : InStep net) (hraised : net.raised = false) (hthrown : net.thrown = false)
    (turn : Turn) {e : Event} (he : Authentic crypto codec e) :
    Stepped crypto codec net turn e := by
  by_cases hstop : net.raised = true ∨ net.halted = true ∨ net.isClosing = true
  · have hnone : net.calls crypto codec turn e = [] := if_pos hstop
    have hsame : net.step crypto codec turn e = net := if_pos hstop
    refine ⟨inStep_step h turn e, ?_, ?_⟩
    · rw [hnone]
      intro call hcall
      exact nomatch hcall
    · rw [hsame, hnone]
      simp [hthrown]
  · have hcalls : net.calls crypto codec turn e = (net.react crypto codec turn e).2 := if_neg hstop
    have hstep : net.step crypto codec turn e
        = ((net.react crypto codec turn e).1.broadcastAll
            (net.react crypto codec turn e).2).settle turn e :=
      if_neg hstop
    have hrun : net.halted = false := by
      rw [← Bool.not_eq_true]
      exact fun hhalt => hstop (Or.inr (Or.inl hhalt))
    refine ⟨inStep_step h turn e, fun call _ => ?_, ?_⟩
    · exact known_iff_current (inStep_react h hrun turn e) call
    · have hbefore : ((net.react crypto codec turn e).1.broadcastAll
          (net.react crypto codec turn e).2).thrown = false := by
        rw [(sameBut_broadcastAll _ _).thrown, react_thrown]
        exact hthrown
      rw [hstep, hcalls, settle, hbefore, Bool.false_or, broadcastAll_raised_iff]
      exact and_iff_right (react_raised hraised turn he)

/-- **The snapshot is in step in every run.** -/
theorem Reaches.inStep {ok : Network → Turn → Event → Prop} {publicKey : Text}
    {genesis : BlockStruct} {chain : Blockchain} {interval : Nat} (hg : 1 ≤ genesis.height)
    (hchain : Blockchain.Runs crypto publicKey genesis chain)
    (h : Reaches crypto codec ok (start chain interval) net) : InStep net := by
  induction h with
  | refl =>
      have hledger := (hchain.stored hg).ledger
      refine ⟨?_, fun _ hpk => (nomatch hpk), fun _ hpk => (nomatch hpk)⟩
      show Keyed chain.toLedger
      rw [hledger]
      exact Keyed.fresh.applyBlocks _
  | step _ turn e _ ih => exact inStep_step ih turn e

/-- A run whose calls are all current does not throw. -/
theorem Reaches.not_thrown {publicKey : Text} {genesis : BlockStruct} {chain : Blockchain}
    {interval : Nat} (hg : 1 ≤ genesis.height)
    (hchain : Blockchain.Runs crypto publicKey genesis chain)
    (h : Reaches crypto codec (Meets crypto codec) (start chain interval) net) :
    net.thrown = false := by
  induction h with
  | refl => rfl
  | step hbefore turn e hok ih =>
      have hstepped := stepped (hbefore.inStep hg hchain) (hbefore.not_raised ih) ih turn hok.1
      refine hstepped.thrown_iff.mpr ?_
      intro call hcall
      exact (hstepped.known_iff call hcall).mpr (hok.2 call hcall)

open Blockchain (sampleStart)

/-- A signed vote of peer 1, for the key of another peer. -/
def relayMessage (i : Nat) : Message :=
  { seq := 1, origin := keyOf 1, dest := keyOf i, data := .signBlock (label 43 1) (label 86 0) }

def relayText (i : Nat) : Text :=
  "\x7b\"seq\":1,\"origin\":\"".toList ++ keyOf 1 ++ "\",\"dest\":\"".toList ++ keyOf i
    ++ "\",\"data\":\x7b\"type\":3,\"hash\":\"".toList ++ label 43 1
    ++ "\",\"sig\":\"".toList ++ label 86 0 ++ "\"\x7d\x7d".toList

/-- The wires of the votes for peer 2 and for peer 7 differ in two characters. -/
def relayWire (part : Text) : Text :=
  ("q1YqTi1UsjLUUcovykzPzFOyUjL09vH18w8IDAoOCQ0Lj4iMSkxKTklNS8_IzMrOyc3LLygs".toList
    ++ "Ki4pLSuvqKxS0lFKSS0uAWoy".toList ++ part
    ++ "1TYkmiklW1UkllQaqSlbGOUkZicQbJVhdnpgP1GBBU6ujk7OLq5u7h6UWC8bW1AA==".toList)

def relayPacked (i : Nat) (part : Text) : Packed :=
  { wire := relayWire part, text := relayText i, value := (relayMessage i).toJson }

def relayCodec (i : Nat) (part : Text) : Codec := tableCodec [relayPacked i part]

def relayCrypto (part : Text) : Crypto := tableCrypto [] [(keyOf 1, relayWire part)]

def relayEvent (part : Text) : Event :=
  .datagram (datagramOf (relayWire part) (label 86 0)) (label 9 1)

theorem relay_authentic {i : Nat} {part : Text}
    (hmatch : matchDatagram (trim (decodeUtf8 (datagramOf (relayWire part) (label 86 0))))
      = some (['4'], relayWire part, label 86 0))
    (htext : decodeUtf8 (asciiBytes (relayText i)) = relayText i)
    (hverified : (relayCrypto part).verifySignature (keyOf 1) (label 86 0) (relayWire part) = true)
    (hvalid : validateMessage (relayMessage i) = true) :
    Authentic (relayCrypto part) (relayCodec i part) (relayEvent part) :=
  ⟨(relayMessage i).toJson, unpacked_datagramOf hmatch htext rfl rfl hverified, relayMessage i,
    Message.ofJson_toJson trivial, hvalid⟩

end Network

end Divachain
