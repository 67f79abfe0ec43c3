/-
  Divachain.Net.Round — a round in which everybody takes part.

  The theorems about candidates and votes say what cannot happen.  Here is what
  does: peers with one chain that see each other online, with the timer of the
  validator set, can bring the next block to its end at each of them, in whatever
  order the votes come in.

  Main results:
    * `commits` — a call of `add` comes to its end, if somebody else has voted;
    * `gathers_run` — the votes before the quorum are collected and nothing else
      happens, the one that makes it starts the call;
    * `round_commits` — the round.
-/
import Divachain.Net.Authorship
import Divachain.Net.Quorum
import Divachain.Net.Rotation

namespace Divachain

open DataKit

/-- The order of the origins does not matter. -/
theorem Ledger.hasQuorumWeighted_perm {l : Ledger} {a b : List Text} (h : a.Perm b) :
    l.hasQuorumWeighted a = l.hasQuorumWeighted b := by
  unfold Ledger.hasQuorumWeighted Ledger.weightOf
  rw [(h.map l.getStake).sum_eq]

namespace Node

variable {crypto : Crypto} {n : Node} {turn : Turn}

/-! ## §1. A call of `add`, to its end. -/

/-- The end of a call, where the stake vote does not fail. -/
theorem finishAdd_toConsensus {i : Nat} {t : AddTask}
    (h : (n.updateCache crypto turn (n.objects t.obj)).halted = false) :
    ∃ answer chain, n.chain.updateCache answer (n.objects t.obj) = some chain
      ∧ (n.finishAdd crypto turn i t).toConsensus = n.toConsensus.finish i t chain := by
  obtain ⟨answer, chain, hcache, hcore⟩ := n.updateCache_toConsensus turn h
  refine ⟨answer, chain, hcache, ?_⟩
  unfold finishAdd
  dsimp only
  rw [if_neg (by rw [h]; exact Bool.false_ne_true),
    andThen_toConsensus (f := fun n => { n with timeoutAddTx := true }) _ fun _ => rfl,
    calcValidator_toConsensus]
  show ((n.updateCache crypto turn (n.objects t.obj)).finish i t
    (n.updateCache crypto turn (n.objects t.obj)).chain).drop = _
  rw [hcore]
  rfl

/-- A turn that resumes a call starts none. -/
theorem adds_resumeAdd (i : Nat) :
    (n.step crypto turn (.resumeAdd i)).adds.length ≤ n.adds.length := by
  unfold step andThen
  split
  · exact Nat.le_refl _
  show (n.resumeAdd crypto turn i).adds.length ≤ _
  unfold resumeAdd
  split
  · exact Nat.le_refl _
  next t ht =>
    split
    · exact Nat.le_of_eq (List.length_set ..)
    · by_cases hhalts : (n.updateCache crypto turn (n.objects t.obj)).halted = true
      · unfold finishAdd
        dsimp only
        rw [if_pos hhalts]
      · obtain ⟨answer, chain, -, hfinish⟩ :=
          finishAdd_toConsensus (i := i) (Bool.eq_false_iff.mpr hhalts)
        have hadds : (n.finishAdd crypto turn i t).adds = n.adds.eraseIdx i :=
          congrArg Consensus.adds hfinish
        rw [hadds]
        exact List.length_eraseIdx_le ..

/-- Such turns do not overlap calls. -/
theorem allowed_resumeAdd {i : Nat} :
    ∀ {k : Nat} {n : Node}, n.adds.length ≤ 1 →
      Allowed crypto (Sequential crypto) n (List.replicate k (turn, .resumeAdd i))
        ∧ (n.run crypto (List.replicate k (turn, .resumeAdd i))).adds.length ≤ 1
  | 0, _, h => ⟨trivial, h⟩
  | k + 1, n, h => by
      have hstep : (n.step crypto turn (.resumeAdd i)).adds.length ≤ 1 :=
        (adds_resumeAdd i).trans h
      obtain ⟨hrest, hadds⟩ := allowed_resumeAdd (i := i) (k := k) hstep
      exact ⟨⟨hstep, hrest⟩, hadds⟩

/-- All of the network are online. -/
def AllOnline (n : Node) (turn : Turn) : Prop :=
  n.arrayNetwork ≠ [] ∧ ∀ k ∈ n.arrayNetwork, turn.isOnline k = true

theorem AllOnline.findable (h : n.AllOnline turn) : n.Findable (n.isOnline turn) := by
  have hseen : ∀ k ∈ n.arrayNetwork, n.isOnline turn k = true := by
    intro k hk
    unfold isOnline
    rw [h.2 k hk, Bool.or_true]
  have hlt : n.chain.height % n.arrayNetwork.length < n.arrayNetwork.length :=
    Nat.mod_lt _ (List.length_pos_iff.mpr h.1)
  refine ⟨⟨_, List.getElem_mem hlt, hseen _ (List.getElem_mem hlt)⟩, Or.inl ?_⟩
  rw [List.getElem?_eq_getElem hlt]
  exact hseen _ (List.getElem_mem hlt)

/-- What this node sends once the block is applied gets through: the peers of the
network are still there, or the hash asks for no stake vote. -/
def KeepsNetwork (n : Node) (b : BlockStruct) : Prop :=
  Blockchain.FewSameChars b ∨ ∀ pk ∈ n.arrayNetwork,
    pk = n.chain.publicKey ∨ (n.chain.toLedger.applyTx b.tx).hasPeer pk = true

/-- The transaction in flight and those that wait. -/
def waiting (n : Node) : Option RecordTx × List RecordStack := (n.ownTx, n.stackTransaction)

/-- The block has the transaction in flight, or there is none and nothing in the
block is signed with the key of this node. -/
def Clears (crypto : Crypto) (n : Node) (b : BlockStruct) : Prop :=
  match n.ownTx with
  | some own => ∃ t ∈ b.tx, t.sig = own.tx.sig
  | none => ∀ t ∈ b.tx, ∀ d, t.sig ≠ crypto.sign n.chain.publicKey d

theorem Clears.congr {m : Node} {b : BlockStruct} (h : Clears crypto n b)
    (hwaiting : m.waiting = n.waiting) (hkey : m.chain.publicKey = n.chain.publicKey) :
    Clears crypto m b := by
  unfold Clears at h ⊢
  rw [show m.ownTx = n.ownTx from congrArg Prod.fst hwaiting, hkey]
  exact h

/-- **The node has committed the block** and is idle.  What waits stays where it
was, and a stake proposal may have come behind it. -/
structure Commits (crypto : Crypto) (b : BlockStruct) (n m : Node) : Prop extends Idle m where
  adds : m.adds = []
  ownTx : m.ownTx = none
  timeoutAddTx : m.timeoutAddTx = true
  committed : m.committed = n.committed ++ [b]
  ledger : m.chain.toLedger = n.chain.toLedger.applyTx b.tx
  height : m.chain.height = b.height
  latest : m.chain.latestBlock.map BlockStruct.hash = some b.hash
  top : m.chain.latestBlock.map BlockStruct.height = some b.height
  publicKey : m.chain.publicKey = n.chain.publicKey
  arrayNetwork : m.arrayNetwork = n.arrayNetwork
  stack : Clears crypto n b → ∃ rs, m.stackTransaction = n.stackTransaction ++ rs

/-- The commands are applied without a look at what waits. -/
theorem waiting_run_resumeAdd {i : Nat} :
    ∀ {turns : List Turn} {n : Node} {t : AddTask}, n.halted = false → n.adds[i]? = some t →
      n.remaining t = turns.length →
        (n.run crypto (turns.map fun turn => (turn, .resumeAdd i))).waiting = n.waiting
  | [], _, _, _, _, _ => rfl
  | turn :: turns, n, t, hrun, ht, hlength => by
      have hp : n.pending t ≠ none := by
        intro h
        rw [pending_eq_none_iff.mp h, List.length_cons] at hlength
        omega
      obtain ⟨happlies, hremaining⟩ := resumeAdd_command crypto turn hrun ht hp
      rw [List.length_cons] at hlength
      have hless : (n.step crypto turn (.resumeAdd i)).remaining { t with pos := t.pos + 1 }
          = turns.length := by omega
      have hrest := waiting_run_resumeAdd happlies.running happlies.task hless
      obtain ⟨oc, hoc⟩ := Option.ne_none_iff_exists'.mp hp
      rw [resumeAdd_some crypto turn hrun ht hoc] at hrest
      show ((n.step crypto turn (.resumeAdd i)).run crypto _).waiting = _
      rw [resumeAdd_some crypto turn hrun ht hoc]
      exact hrest

/-- How a call ends, if its end does not fail. -/
theorem finishAdd_eq {i : Nat} {t : AddTask}
    (hvote : (n.updateCache crypto turn (n.objects t.obj)).halted = false)
    (hgoes : (n.finishAdd crypto turn i t).halted = false) :
    ∃ v, n.finishAdd crypto turn i t
      = { afterCommit crypto n turn i t with validator := v, timeoutAddTx := true } := by
  have hfinish : n.finishAdd crypto turn i t = ((afterCommit crypto n turn i t).calcValidator
      turn).andThen fun m => { m with timeoutAddTx := true } :=
    if_neg (by rw [hvote]; exact Bool.false_ne_true)
  set m := afterCommit crypto n turn i t with hm
  have hrun : m.halted = false := hvote
  rw [hfinish] at hgoes ⊢
  unfold calcValidator at hgoes ⊢
  cases hfind : m.findValidator (m.isOnline turn) with
  | none =>
      rw [hfind] at hgoes
      cases hgoes
  | some v =>
      refine ⟨v, ?_⟩
      dsimp only
      exact if_neg (by rw [hrun]; exact Bool.false_ne_true)

/-- **What waits at the end of a call.** -/
theorem stack_afterCommit {i : Nat} {t : AddTask} {b : BlockStruct}
    (hsigs : (n.objects t.obj).tx.map TransactionStruct.header = b.tx.map TransactionStruct.header)
    (h : Clears crypto n b) :
    ∃ rs, (afterCommit crypto n turn i t).stackTransaction = n.stackTransaction ++ rs := by
  set m := n.updateCache crypto turn (n.objects t.obj) with hm
  set k : Node := { m with toConsensus := m.toConsensus.finish i t m.chain } with hk
  have hbooked : Booked crypto (n.setChain ((n.chain.cacheBlock (n.objects t.obj)).countVotes
    (n.objects t.obj))) m := booked_updateCache n turn (n.objects t.obj)
  obtain ⟨rs, -, hline⟩ := hbooked.line
  have hline' : k.line = n.line ++ rs := hline
  have hstack : (k.clear (some (n.objects t.obj))).line
      = (afterCommit crypto n turn i t).stackTransaction := rfl
  unfold Clears at h
  refine ⟨rs, ?_⟩
  rw [← hstack]
  cases hown : n.ownTx with
  | some own =>
      rw [hown] at h
      obtain ⟨u, hu, hsig⟩ := h
      obtain ⟨u', hu', -, hsig'⟩ := exists_of_header hsigs.symm hu
      have hslot : k.ownTx = some own := by
        have hout : m.outgoing = n.outgoing := outgoing_updateCache hown turn _
        exact (congrArg Prod.fst hout).trans hown
      have hoff := line_clear_of_mem hslot hu' (hsig'.trans hsig)
      rw [hline', Node.line, hown] at hoff
      exact (List.cons.inj hoff).2.symm
  | none =>
      rw [hown] at h
      have hback := line_clear_of_not_mem (m := k) (b := n.objects t.obj) (by
        intro own hslot u hu hsig
        obtain ⟨u', hu', -, hsig'⟩ := exists_of_header hsigs hu
        rcases hbooked.ownTx own hslot with hold | hnew
        · exact Option.some_ne_none own (hold.symm.trans hown)
        · have hmade := congrArg TransactionStruct.sig hnew.2
          have hkey : m.chain.publicKey = n.chain.publicKey := hbooked.publicKey
          rw [signTx, hkey] at hmade
          exact h u' hu' _ ((hsig'.trans hsig).trans hmade))
      rw [hback, hline', Node.line, hown]
      rfl

/-- The turns that take a call to its end. -/
def completing (turn : Turn) (b : BlockStruct) : List (Turn × Event) :=
  List.replicate ((commandsOf b.tx).length + 1) (turn, .resumeAdd 0)

theorem run_completing (b : BlockStruct) :
    n.run crypto (completing turn b)
      = (n.run crypto (resuming 0 (List.replicate (commandsOf b.tx).length turn))).step crypto turn
        (.resumeAdd 0) := by
  rw [completing, List.replicate_succ', resuming, List.map_replicate]
  exact List.foldl_append ..

/-- The only call of a node is the only one until its last turn. -/
theorem adds_run_resuming {m : Node} {t : AddTask} (ht : n.adds = [t]) (k : Nat)
    (hm : m = n.run crypto (resuming 0 (List.replicate k turn))) (htask : m.adds[0]? ≠ none) :
    m.adds.eraseIdx 0 = [] := by
  have hone : (n.run crypto (List.replicate k (turn, .resumeAdd 0))).adds.length ≤ 1 :=
    (allowed_resumeAdd (ht ▸ Nat.le_refl 1)).2
  rw [← List.map_replicate (f := fun turn => (turn, Event.resumeAdd 0))] at hone
  change (n.run crypto (resuming 0 (List.replicate k turn))).adds.length ≤ 1 at hone
  rw [← hm] at hone
  have hlt : 0 < m.adds.length := by
    by_contra hnone
    exact htask (List.getElem?_eq_none_iff.mpr (Nat.le_of_not_lt hnone))
  refine List.eq_nil_of_length_eq_zero ?_
  have herase := List.length_eraseIdx_add_one hlt
  omega

namespace AllApplied

variable {i : Nat} {t : AddTask} {m : Node}

theorem ledger (h : AllApplied i t n m) :
    m.chain.toLedger = n.chain.toLedger.applyTx t.stored.tx := by
  rw [h.chain]
  exact Ledger.processState_fst _ _

theorem publicKey (h : AllApplied i t n m) : m.chain.publicKey = n.chain.publicKey := by
  rw [h.chain]
  rfl

theorem allOnline (h : AllApplied i t n m) (honline : n.AllOnline turn) (b : BlockStruct) :
    (m.withLast b).AllOnline turn := by
  show m.arrayNetwork ≠ [] ∧ _
  rw [h.arrayNetwork]
  exact ⟨honline.1, fun k hk => honline.2 k (h.arrayNetwork ▸ hk)⟩

/-- The stake vote of the call does not fail. -/
theorem completes (h : AllApplied i t n m) (honline : n.AllOnline turn)
    (hkeeps : n.KeepsNetwork t.stored) {k : Text} (hk : k ≠ n.chain.publicKey)
    (hvoted : k ∈ t.stored.votes.map VoteStruct.origin)
    (hpeer : (n.chain.toLedger.applyTx t.stored.tx).hasPeer k = true) :
    Completes crypto m turn (m.objects t.obj) := by
  have hsends : Blockchain.FewSameChars (m.objects t.obj)
      ∨ (m.withLast (m.objects t.obj)).Deliverable turn := by
    rcases hkeeps with hfew | hthere
    · left
      rw [h.object]
      exact hfew
    · refine Or.inr ⟨(h.allOnline honline _).findable, Or.inr (canBroadcast_iff.mpr ?_)⟩
      intro pk hpk
      show pk = m.chain.publicKey ∨ m.chain.toLedger.hasPeer pk = true
      rw [h.publicKey, h.ledger]
      exact hthere pk (h.arrayNetwork ▸ hpk)
  refine completes_of_voter hsends (h.publicKey ▸ hk) ?_ (h.ledger ▸ hpeer)
  rw [h.object]
  exact hvoted

end AllApplied

/-- **A call of `add` comes to its end** while the network is online, if somebody
has voted who is a peer after the block, and not the node itself. -/
theorem commits (hrun : n.halted = false) {t : AddTask} (ht : n.adds = [t]) (hpos : t.pos = 0)
    (hobject : n.objects t.obj = t.stored) (honline : n.AllOnline turn)
    (hkeeps : n.KeepsNetwork t.stored) {k : Text} (hk : k ≠ n.chain.publicKey)
    (hvoted : k ∈ t.stored.votes.map VoteStruct.origin)
    (hpeer : (n.chain.toLedger.applyTx t.stored.tx).hasPeer k = true) :
    Commits crypto t.stored n (n.run crypto (completing turn t.stored)) := by
  have htask : n.adds[0]? = some t := by
    rw [ht]
    rfl
  set turns := List.replicate (commandsOf t.stored.tx).length turn with hturns
  have hlength : turns.length = (commandsOf t.stored.tx).length := List.length_replicate
  have happlied : AllApplied 0 t n (n.run crypto (resuming 0 turns)) :=
    allApplied crypto hrun htask hpos hobject hlength
  have hwaiting : (n.run crypto (resuming 0 turns)).waiting = n.waiting :=
    waiting_run_resumeAdd hrun htask ((remaining_of_start hpos hobject).trans hlength.symm)
  rw [run_completing, ← hturns]
  generalize hm : n.run crypto (resuming 0 turns) = m at happlied hwaiting ⊢
  rw [resumeAdd_none crypto turn happlied.running happlied.task happlied.pending]
  set t' : AddTask := { t with pos := (commandsOf t.stored.tx).length }
  have hcompletes : Completes crypto m turn (m.objects t'.obj) :=
    happlied.completes honline hkeeps hk hvoted hpeer
  have hvote : (m.updateCache crypto turn (m.objects t'.obj)).halted = false := by
    by_contra hfails
    exact (updateCache_halted_iff crypto turn happlied.running _).mp
      (Bool.not_eq_false _ ▸ hfails) hcompletes
  have hgoes : (m.finishAdd crypto turn 0 t').halted = false :=
    (finishAdd_halted_iff turn happlied.running).mpr
      ⟨hcompletes, (happlied.allOnline honline _).findable⟩
  obtain ⟨answer, chain, hcache, hfinish⟩ := finishAdd_toConsensus (i := 0) hvote
  have hspec := Blockchain.updateCache_spec hcache
  rw [show m.objects t'.obj = _ from happlied.object] at hspec
  have hchain : (m.finishAdd crypto turn 0 t').chain = chain := congrArg Consensus.chain hfinish
  have hadds : (m.finishAdd crypto turn 0 t').adds = [] :=
    (congrArg Consensus.adds hfinish).trans (adds_run_resuming ht _ hm.symm
      (happlied.task ▸ Option.some_ne_none _))
  have hcommitted := congrArg Consensus.committed hfinish
  have hblock := congrArg Consensus.block hfinish
  have hnetwork : (m.finishAdd crypto turn 0 t').arrayNetwork = n.arrayNetwork := by
    rw [arrayNetwork_finishAdd, happlied.arrayNetwork]
  obtain ⟨v, hend⟩ := finishAdd_eq hvote hgoes
  rw [hend] at hgoes hchain hadds hcommitted hblock hnetwork ⊢
  refine
    { running := hgoes
      block := hblock
      current := rfl
      arrayPoolTx := rfl
      timer := rfl
      adds := hadds
      ownTx := rfl
      timeoutAddTx := rfl
      committed := happlied.committed ▸ hcommitted
      ledger := ?_
      height := ?_
      latest := ?_
      top := ?_
      publicKey := ?_
      arrayNetwork := hnetwork
      stack := fun hclears => ?_ }
  · rw [hchain, hspec.ledger, happlied.ledger]
  · rw [hchain, hspec.height]
  · rw [hchain, hspec.latestBlock]
    rfl
  · rw [hchain, hspec.latestBlock]
    rfl
  · rw [hchain, hspec.publicKey, happlied.publicKey]
  · have hclears' : Clears crypto m t.stored := hclears.congr hwaiting happlied.publicKey
    have hheaders : (m.objects t'.obj).tx.map TransactionStruct.header
        = t.stored.tx.map TransactionStruct.header := by
      rw [show m.objects t'.obj = _ from happlied.object]
      exact Ledger.map_header_processState _ _
    obtain ⟨rs, hrs⟩ := stack_afterCommit hheaders hclears'
    exact ⟨rs, hrs.trans (congrArg (· ++ rs) (congrArg Prod.snd hwaiting))⟩

/-! ## §2. Messages, once the validator is known. -/

variable {v : Text}

/-- It is this peer's turn; all of the network are online, and peers. -/
structure TurnOf (n : Node) (turn : Turn) (v : Text) : Prop where
  online : n.AllOnline turn
  known : n.canBroadcast = true
  index : n.arrayNetwork[n.chain.height % n.arrayNetwork.length]? = some v

theorem TurnOf.finds (h : n.TurnOf turn v) : n.findValidator (n.isOnline turn) = some v := by
  refine findValidator_of_turn h.index ?_
  unfold isOnline
  rw [h.online.2 v (List.mem_of_getElem? h.index), Bool.or_true]

theorem TurnOf.deliverable (h : n.TurnOf turn v) : n.Deliverable turn :=
  ⟨h.online.findable, Or.inr h.known⟩

theorem TurnOf.congr {m : Node} (h : n.TurnOf turn v) (hchain : m.chain = n.chain)
    (harray : m.arrayNetwork = n.arrayNetwork) : m.TurnOf turn v := by
  refine ⟨?_, ?_, ?_⟩
  · unfold AllOnline
    rw [harray]
    exact h.online
  · rw [canBroadcast, harray, hchain]
    exact h.known
  · rw [harray, hchain]
    exact h.index

theorem post_of_known (h : n.canBroadcast = true) (m : Message) :
    n.post m = { n with posted := n.posted ++ [m] } := by
  unfold post
  rw [h, Bool.not_true, Bool.or_false]

/-- Nothing is to be caught. -/
theorem rescue_of_running (h : n.halted = false) : n.rescue turn = n := by
  obtain ⟨c, _, _, _, _, _, _, _, _, _, _, _, halted, _, _⟩ := n
  obtain rfl : halted = false := h
  rfl

/-- **A peer votes for the candidate of the validator.** -/
theorem step_proposeBlock (hrun : n.halted = false) (hturn : n.TurnOf turn v)
    (hv : n.chain.publicKey ≠ v) {m : Message} {b : BlockStruct} (hdata : m.data = .proposeBlock b)
    (horigin : m.origin = v) (hvalid : validateMessage m = true)
    (hok : n.acceptable crypto b = true) :
    n.step crypto turn (.message m)
      = { n with
          toConsensus := ((n.hold b).sign b.hash).send
            (n.message turn.now v (.signBlock b.hash (n.ownVote crypto b.hash).sig))
          validator := v
          timeoutRetry := true } := by
  have hfinds := hturn.finds
  rw [step_of_running crypto hrun, react, if_pos hvalid]
  unfold processMessage
  rw [hdata]
  dsimp only
  rw [processMessage_of_finds hrun hfinds]
  refine (if_pos (decide_eq_true horigin)).trans ?_
  unfold processProposeBlock
  refine (if_pos hok).trans ?_
  rw [processMessage_of_finds (n := { n with toConsensus := n.hold b, validator := v }) hrun hfinds]
  rw [transmit_of_known (n := { n with toConsensus := n.hold b, validator := v }) hturn.known]
  refine (if_neg (by rw [hrun]; exact Bool.false_ne_true)).trans ?_
  unfold Consensus.approve
  have hv' : ¬ ((n.hold b).sign b.hash).chain.publicKey = v := hv
  dsimp only
  rw [if_neg hv']
  rfl

/-! ## §3. A call of `add` has started. -/

/-- The node has started a call with this block, and nothing else has happened to
what the round is about. -/
structure Calls (b : BlockStruct) (n m : Node) : Prop where
  running : m.halted = false
  task : ∃ obj, m.adds = [{ obj := obj, pos := 0, stored := b, fromSync := false }]
    ∧ m.objects obj = b
  chain : m.chain = n.chain.putBlock b.height b
  committed : m.committed = n.committed
  arrayNetwork : m.arrayNetwork = n.arrayNetwork
  waiting : m.waiting = n.waiting

theorem Calls.adds_le {b : BlockStruct} {m : Node} (h : Calls b n m) : m.adds.length ≤ 1 := by
  obtain ⟨obj, hadds, -⟩ := h.task
  rw [hadds]
  exact Nat.le_refl 1

/-- **The call comes to its end.** -/
theorem Calls.commits {b : BlockStruct} {m : Node} (h : Calls b n m) (honline : n.AllOnline turn)
    (hkeeps : n.KeepsNetwork b) {k : Text} (hk : k ≠ n.chain.publicKey)
    (hvoted : k ∈ b.votes.map VoteStruct.origin)
    (hpeer : (n.chain.toLedger.applyTx b.tx).hasPeer k = true) :
    Commits crypto b n (m.run crypto (completing turn b)) := by
  obtain ⟨obj, hadds, hobject⟩ := h.task
  have hledger : m.chain.toLedger = n.chain.toLedger := by
    rw [h.chain]
    rfl
  have hpublicKey : m.chain.publicKey = n.chain.publicKey := by
    rw [h.chain]
    rfl
  have honline' : m.AllOnline turn := by
    unfold AllOnline
    rw [h.arrayNetwork]
    exact honline
  have hkeeps' : m.KeepsNetwork b := by
    unfold KeepsNetwork
    rw [h.arrayNetwork, hpublicKey, hledger]
    exact hkeeps
  have hend : Commits crypto b m (m.run crypto (completing turn b)) :=
    Node.commits h.running hadds rfl hobject honline' hkeeps' (hpublicKey ▸ hk) hvoted
      (hledger ▸ hpeer)
  exact
    { toIdle := hend.toIdle
      adds := hend.adds
      ownTx := hend.ownTx
      timeoutAddTx := hend.timeoutAddTx
      committed := h.committed ▸ hend.committed
      ledger := hledger ▸ hend.ledger
      height := hend.height
      latest := hend.latest
      top := hend.top
      publicKey := hend.publicKey.trans hpublicKey
      arrayNetwork := hend.arrayNetwork.trans h.arrayNetwork
      stack := fun hclears => by
        obtain ⟨rs, hrs⟩ := hend.stack (hclears.congr h.waiting hpublicKey)
        exact ⟨rs, hrs.trans (congrArg (· ++ rs) (congrArg Prod.snd h.waiting))⟩ }

/-! ## §4. The validator. -/

/-- The candidate `b` has got these votes, and nothing else has happened. -/
structure Gathers (b : BlockStruct) (obj : Nat) (n : Node) (votes : List VoteStruct) (m : Node) :
    Prop where
  running : m.halted = false
  block : m.block = some obj
  object : m.objects obj = { b with votes := b.votes ++ votes }
  adds : m.adds = []
  chain : m.chain = n.chain
  committed : m.committed = n.committed
  arrayNetwork : m.arrayNetwork = n.arrayNetwork
  waiting : m.waiting = n.waiting

/-- The message that brings a vote. -/
def signMessage (v hash : Text) (x : Nat × VoteStruct) : Message :=
  { seq := x.1, origin := x.2.origin, dest := v, data := .signBlock hash x.2.sig }

variable {b : BlockStruct} {obj : Nat} {votes : List VoteStruct} {m : Node}

/-- What a vote does, if it is not turned away. -/
theorem Gathers.vote (crypto : Crypto) (h : Gathers b obj n votes m) (hturn : n.TurnOf turn v)
    (hv : n.chain.publicKey = v) {x : Nat × VoteStruct}
    (hvalid : validateMessage (signMessage v b.hash x) = true)
    (hnew : x.2.origin ∉ (b.votes ++ votes).map VoteStruct.origin) :
    let c := m.toConsensus.pushVote obj x.2
    c.objects obj = { b with votes := b.votes ++ (votes ++ [x.2]) }
      ∧ m.step crypto turn (.message (signMessage v b.hash x))
        = { m with
            toConsensus :=
              if c.quorate obj then
                (c.startAdd crypto obj false).send (c.confirmation turn.now obj)
              else c
            validator := v } := by
  dsimp only
  have hhash : (m.objects obj).hash = b.hash := by rw [h.object]
  have hvotable : m.toConsensus.votable x.2.origin b.hash = some obj := by
    refine (Consensus.votable_eq_some_iff h.block).mpr ⟨hhash.symm, ?_⟩
    rw [h.object]
    exact hnew
  have hturn' : m.TurnOf turn v := hturn.congr h.chain h.arrayNetwork
  have hstep : m.step crypto turn (.message (signMessage v b.hash x)) = _ :=
    step_signBlock crypto h.running hturn'.known hturn'.finds (by rw [h.chain]; exact hv) rfl hvalid
  refine ⟨?_, ?_⟩
  · unfold Consensus.pushVote
    rw [Consensus.objects_write_self, h.object, List.append_assoc]
  · rw [hstep]
    unfold Consensus.processSignBlock
    rw [show (signMessage v b.hash x).origin = x.2.origin from rfl, hvotable]

/-- **Too few votes**: it is counted. -/
theorem Gathers.few (crypto : Crypto) (h : Gathers b obj n votes m) (hturn : n.TurnOf turn v)
    (hv : n.chain.publicKey = v) {x : Nat × VoteStruct}
    (hvalid : validateMessage (signMessage v b.hash x) = true)
    (hnew : x.2.origin ∉ (b.votes ++ votes).map VoteStruct.origin)
    (hfew : n.chain.hasQuorumWeighted
      ((b.votes ++ (votes ++ [x.2])).map VoteStruct.origin) = false) :
    Gathers b obj n (votes ++ [x.2]) (m.step crypto turn (.message (signMessage v b.hash x))) := by
  obtain ⟨hobject, hstep⟩ := h.vote crypto hturn hv hvalid hnew
  set c := m.toConsensus.pushVote obj x.2 with hc
  have hquorate : c.quorate obj = false := by
    unfold Consensus.quorate
    rw [hobject]
    exact h.chain ▸ hfew
  rw [hstep, hquorate]
  exact ⟨h.running, h.block, hobject, h.adds, h.chain, h.committed, h.arrayNetwork, h.waiting⟩

/-- **The vote that makes the quorum** starts the call, and the confirmation is sent. -/
theorem Gathers.last (h : Gathers b obj n votes m) (hturn : n.TurnOf turn v)
    (hv : n.chain.publicKey = v) {x : Nat × VoteStruct}
    (hvalid : validateMessage (signMessage v b.hash x) = true)
    (hnew : x.2.origin ∉ (b.votes ++ votes).map VoteStruct.origin) {b' : BlockStruct}
    (hb' : b' = { b with votes := b.votes ++ (votes ++ [x.2]) })
    (hquorum : n.chain.hasQuorumWeighted (b'.votes.map VoteStruct.origin) = true)
    (haccepts : n.chain.accepts crypto b' = true) :
    let m' := m.step crypto turn (.message (signMessage v b.hash x))
    Calls b' n m' ∧ n.message turn.now [] (.confirmBlock b'.hash b'.votes) ∈ m'.sent := by
  obtain ⟨hobject, hstep⟩ := h.vote crypto hturn hv hvalid hnew
  set c := m.toConsensus.pushVote obj x.2 with hc
  have hchain : c.chain = n.chain := h.chain
  rw [← hb'] at hobject
  have hquorate : c.quorate obj = true := by
    unfold Consensus.quorate
    rw [hobject, hchain]
    exact hquorum
  have hstart : c.startAdd crypto obj false = _ := if_pos (by rw [hobject, hchain]; exact haccepts)
  rw [hobject] at hstart
  dsimp only
  rw [hstep, if_pos hquorate, hstart]
  refine ⟨⟨h.running, ⟨obj, ?_, hobject⟩, ?_, h.committed, h.arrayNetwork, h.waiting⟩, ?_⟩
  · show m.adds ++ _ = _
    rw [h.adds]
    rfl
  · show c.chain.putBlock _ _ = _
    rw [hchain]
  · refine List.mem_append_right _ (List.mem_singleton.mpr ?_)
    unfold Consensus.confirmation Consensus.message
    rw [hobject, hchain]

/-- The turns that bring votes. -/
def signing (turn : Turn) (v hash : Text) (l : List (Nat × VoteStruct)) : List (Turn × Event) :=
  l.map fun x => (turn, .message (signMessage v hash x))

/-- **The votes before the quorum are collected**, in whatever order they come. -/
theorem gathers_run (hturn : n.TurnOf turn v) (hv : n.chain.publicKey = v) :
    ∀ {l : List (Nat × VoteStruct)} {votes : List VoteStruct} {m : Node}, Gathers b obj n votes m →
      (∀ x ∈ l, validateMessage (signMessage v b.hash x) = true) →
      ((b.votes ++ (votes ++ l.map Prod.snd)).map VoteStruct.origin).Nodup →
      (∀ p, p <+: l → p ≠ [] → n.chain.hasQuorumWeighted
        ((b.votes ++ (votes ++ p.map Prod.snd)).map VoteStruct.origin) = false) →
        Gathers b obj n (votes ++ l.map Prod.snd) (m.run crypto (signing turn v b.hash l))
          ∧ Allowed crypto (Sequential crypto) m (signing turn v b.hash l)
  | [], votes, m, h, _, _, _ => by
      rw [List.map_nil, List.append_nil]
      exact ⟨h, trivial⟩
  | x :: l, votes, m, h, hvalid, hnodup, hfew => by
      have hnew : x.2.origin ∉ (b.votes ++ votes).map VoteStruct.origin := by
        rw [List.map_cons, ← List.append_assoc, List.map_append, List.map_cons] at hnodup
        intro hmem
        exact (List.nodup_append.mp hnodup).2.2 _ hmem _ List.mem_cons_self rfl
      have hone := hfew [x] ⟨l, rfl⟩ (List.cons_ne_nil x [])
      have hstep := h.few crypto hturn hv (hvalid x List.mem_cons_self) hnew hone
      have hsplit : votes ++ (x :: l).map Prod.snd = votes ++ [x.2] ++ l.map Prod.snd := by
        rw [List.map_cons, List.append_assoc, List.singleton_append]
      rw [hsplit] at hnodup ⊢
      obtain ⟨hrest, hallowed⟩ := gathers_run hturn hv hstep
        (fun y hy => hvalid y (List.mem_cons_of_mem x hy)) hnodup fun p hp _ => by
          have hlonger := hfew (x :: p) (List.cons_prefix_cons.mpr ⟨rfl, hp⟩) (List.cons_ne_nil x p)
          rwa [List.map_cons, ← List.singleton_append, ← List.append_assoc votes] at hlonger
      refine ⟨hrest, ?_, hallowed⟩
      show (m.step crypto turn _).adds.length ≤ 1
      rw [hstep.adds]
      exact Nat.zero_le 1

/-! ## §5. Its peers. -/

/-- The peer holds the candidate. -/
structure Holds (b : BlockStruct) (n m : Node) : Prop where
  running : m.halted = false
  block : ∃ obj, m.block = some obj ∧ m.objects obj = b
  adds : m.adds = []
  chain : m.chain = n.chain
  committed : m.committed = n.committed
  arrayNetwork : m.arrayNetwork = n.arrayNetwork
  waiting : m.waiting = n.waiting

/-- **A peer that gets the proposal holds it**, and has voted for it. -/
theorem holds_of_proposal (hrun : n.halted = false) (hadds : n.adds = [])
    (hturn : n.TurnOf turn v) (hv : n.chain.publicKey ≠ v) {msg : Message}
    (hdata : msg.data = .proposeBlock b) (horigin : msg.origin = v)
    (hvalid : validateMessage msg = true) (hok : n.acceptable crypto b = true) :
    let m := n.step crypto turn (.message msg)
    Holds b n m ∧ signMessage v b.hash (turn.now, n.ownVote crypto b.hash) ∈ m.sent := by
  dsimp only
  rw [step_proposeBlock hrun hturn hv hdata horigin hvalid hok]
  refine ⟨⟨hrun, ⟨n.next, rfl, Consensus.objects_alloc_self⟩, hadds, rfl, rfl, rfl, rfl⟩, ?_⟩
  exact List.mem_append_right _ (List.mem_singleton.mpr rfl)

/-- **A peer that gets the confirmation starts the call.** -/
theorem Holds.calls (h : Holds b n m) (hturn : n.TurnOf turn v) {msg : Message}
    (hdata : msg.data = .confirmBlock b.hash votes) (horigin : msg.origin = v)
    (hvalid : validateMessage msg = true) (hpos : 0 < b.height)
    (haccepts : n.chain.accepts crypto { b with votes := votes } = true) :
    Calls { b with votes := votes } n (m.step crypto turn (.message msg)) := by
  obtain ⟨obj, hblock, hobject⟩ := h.block
  have hturn' : m.TurnOf turn v := hturn.congr h.chain h.arrayNetwork
  rw [step_confirmBlock crypto h.running hturn'.finds hdata horigin hvalid]
  have hheld : m.hasBlock = true := by
    rw [Consensus.hasBlock, Consensus.held, hblock, Option.map_some, hobject]
    exact decide_eq_true hpos
  unfold Consensus.processConfirmBlock
  rw [hblock]
  dsimp only
  rw [hobject, if_pos ⟨hheld, rfl⟩]
  set c := m.toConsensus.write obj { b with votes := votes } with hc
  have hwritten : c.objects obj = { b with votes := votes } := Consensus.objects_write_self
  have hchain : c.chain = n.chain := h.chain
  have hstart : c.startAdd crypto obj false = _ :=
    if_pos (by rw [hwritten, hchain]; exact haccepts)
  rw [hwritten] at hstart
  rw [hstart]
  refine ⟨h.running, ⟨obj, ?_, hwritten⟩, ?_, h.committed, h.arrayNetwork, h.waiting⟩
  · show m.adds ++ _ = _
    rw [h.adds]
    rfl
  · show c.chain.putBlock _ _ = _
    rw [hchain]

end Node

/-! ## §6. The first quorum. -/

/-- Of the prefixes with a property there is a first one. -/
theorem exists_first {α : Type} {P : List α → Prop} [DecidablePred P] {l : List α} (hne : l ≠ [])
    (h : P l) : ∃ before x after, l = before ++ x :: after ∧ P (before ++ [x])
      ∧ ∀ p, p <+: before → p ≠ [] → ¬ P p := by
  have hexists : ∃ k, k < l.length ∧ P (l.take (k + 1)) := by
    obtain ⟨k, hk⟩ := Nat.exists_eq_add_one_of_ne_zero (mt List.length_eq_zero_iff.mp hne)
    refine ⟨k, by omega, ?_⟩
    rw [← hk, List.take_length]
    exact h
  set k := Nat.find hexists with hk
  obtain ⟨hlt, hfirst⟩ := Nat.find_spec hexists
  rw [List.take_add_one, List.getElem?_eq_getElem hlt] at hfirst
  refine ⟨l.take k, l[k], l.drop (k + 1), ?_, hfirst, ?_⟩
  · rw [← List.drop_eq_getElem_cons hlt, List.take_append_drop]
  · intro p hp hpne hholds
    have hlength := hp.length_le
    rw [List.length_take] at hlength
    obtain ⟨j, hj⟩ := Nat.exists_eq_add_one_of_ne_zero (mt List.length_eq_zero_iff.mp hpne)
    refine Nat.find_min hexists (m := j) (by omega) ⟨by omega, ?_⟩
    rw [← hj, ← List.prefix_iff_eq_take.mp (hp.trans (List.take_prefix k l))]
    exact hholds

/-- Votes of different peers for the hash are all counted. -/
theorem counted_of_nodup {hash : Text} :
    ∀ {seen : List Text} {l : List SignBlock}, (∀ m ∈ l, m.hash = hash) →
      (seen ++ l.map SignBlock.origin).Nodup → counted hash seen l = l
  | _, [], _, _ => rfl
  | seen, m :: l, hhash, hnodup => by
      have hnew : m.origin ∉ seen := by
        intro hmem
        exact (List.nodup_append.mp hnodup).2.2 _ hmem _ List.mem_cons_self rfl
      rw [List.map_cons, ← List.singleton_append, ← List.append_assoc] at hnodup
      rw [counted, if_pos ⟨hhash m List.mem_cons_self, hnew⟩,
        counted_of_nodup (fun m' hm' => hhash m' (List.mem_cons_of_mem m hm')) hnodup]

/-! ## §7. The candidate and its votes. -/

namespace System

open Node (Standing SameChain Gathers Holds Calls Commits signMessage signing completing)

variable {ι : Type} {crypto : Crypto} {s : System ι}

/-- The key of a node. -/
def key (s : System ι) (i : ι) : Text := (s.nodes i).chain.publicKey

/-- The candidate of the validator. -/
def proposed (crypto : Crypto) (s : System ι) (v : ι) : BlockStruct :=
  (s.nodes v).proposal crypto (s.nodes v).arrayPoolTx

/-- **Everybody is ready for the next block**: the nodes have one chain, each has
only peers in its list of the network and sees all of them online, it is the turn of
`v`, whose timer is set, and the others are enough for a quorum. -/
structure Ready (crypto : Crypto) (s : System ι) (v : ι) (voters : List ι) (turn : ι → Turn) :
    Prop where
  running : ∀ i ∈ v :: voters, (s.nodes i).halted = false
  adds : ∀ i ∈ v :: voters, (s.nodes i).adds = []
  same : ∀ i ∈ v :: voters, SameChain (s.nodes v).toConsensus (s.nodes i).toConsensus
  turnOf : ∀ i ∈ v :: voters, (s.nodes i).TurnOf (turn i) (s.key v)
  now : ∀ i ∈ v :: voters, 1 ≤ (turn i).now
  key_ok : ∀ i ∈ voters, isKeyText (s.key i) = true
  keys : ((v :: voters).map s.key).Nodup
  standing : ∃ latest, Standing (s.nodes v).toConsensus latest
  armed : (s.nodes v).timeoutProposeBlock = true
  pooled : (s.nodes v).arrayPoolTx ≠ [] ∧ (s.nodes v).arrayPoolTx.length ≤ 16
  valid : ∀ t ∈ (s.nodes v).arrayPoolTx, validateTx crypto (s.nodes v).chain.toLedger
    ((s.nodes v).chain.height + 1) t = true
  origins : ((s.nodes v).arrayPoolTx.map TransactionStruct.origin).Nodup
  others : voters ≠ [] ∧ voters.length ≤ 15
  quorum : (s.nodes v).chain.hasQuorumWeighted ((v :: voters).map s.key) = true
  /-- Nobody of them leaves with this block. -/
  stays : ∀ i ∈ v :: voters,
    ((s.nodes v).chain.toLedger.applyTx (s.nodes v).arrayPoolTx).hasPeer (s.key i) = true
  /-- And nobody of the network does, or the block asks for no stake vote. -/
  keeps : Blockchain.FewSameChars (s.proposed crypto v) ∨ ∀ i ∈ v :: voters,
    ∀ pk ∈ (s.nodes i).arrayNetwork,
      ((s.nodes v).chain.toLedger.applyTx (s.nodes v).arrayPoolTx).hasPeer pk = true

variable {v : ι} {voters : List ι} {turn : ι → Turn}

/-- The vote of a peer for it. -/
def signed (crypto : Crypto) (s : System ι) (v i : ι) : SignBlock :=
  { origin := s.key i
    hash := (s.proposed crypto v).hash
    sig := crypto.sign (s.key i) (s.proposed crypto v).hash }

/-- The proposal as it is sent. -/
def proposalMessage (crypto : Crypto) (s : System ι) (v : ι) (turn : ι → Turn) : Message :=
  (s.nodes v).message (turn v).now [] (.proposeBlock (s.proposed crypto v))

/-- Who has voted. -/
theorem origins_signed (is : List ι) :
    ((s.proposed crypto v).votes ++ is.map fun i => (s.signed crypto v i).vote).map
      VoteStruct.origin = (v :: is).map s.key := by
  rw [List.map_append, List.map_map]
  rfl

/-- The candidate with these votes. -/
def confirmed (crypto : Crypto) (s : System ι) (v : ι) (is : List ι) : BlockStruct :=
  { s.proposed crypto v with
    votes := (s.proposed crypto v).votes ++ is.map fun i => (s.signed crypto v i).vote }

theorem counted_signed {is : List ι} (hnodup : ((v :: is).map s.key).Nodup) :
    counted (s.proposed crypto v).hash [s.key v] (is.map (s.signed crypto v))
      = is.map (s.signed crypto v) := by
  refine counted_of_nodup ?_ ?_
  · intro m hm
    obtain ⟨i, -, rfl⟩ := List.mem_map.mp hm
    rfl
  · rw [List.map_map]
    exact hnodup

theorem candidate_signed {is : List ι} (hnodup : ((v :: is).map s.key).Nodup) :
    (s.nodes v).candidate crypto (s.nodes v).arrayPoolTx (is.map (s.signed crypto v))
      = s.confirmed crypto v is := by
  show ({ s.proposed crypto v with votes := (s.proposed crypto v).votes
    ++ (counted (s.proposed crypto v).hash [s.key v] _).map SignBlock.vote } : BlockStruct) = _
  rw [counted_signed hnodup, List.map_map]
  rfl

/-- It does not matter in which order the others are listed. -/
theorem Ready.perm (h : s.Ready crypto v voters turn) {order : List ι}
    (hperm : order.Perm voters) : s.Ready crypto v order turn := by
  have hmem : ∀ i ∈ v :: order, i ∈ v :: voters := fun i hi => (hperm.cons v).mem_iff.mp hi
  exact
    { running := fun i hi => h.running i (hmem i hi)
      adds := fun i hi => h.adds i (hmem i hi)
      same := fun i hi => h.same i (hmem i hi)
      turnOf := fun i hi => h.turnOf i (hmem i hi)
      now := fun i hi => h.now i (hmem i hi)
      key_ok := fun i hi => h.key_ok i (hperm.mem_iff.mp hi)
      keys := ((hperm.cons v).map s.key).nodup_iff.mpr h.keys
      standing := h.standing
      armed := h.armed
      pooled := h.pooled
      valid := h.valid
      origins := h.origins
      others := ⟨fun hnil => h.others.1 (List.nil_perm.mp (hnil ▸ hperm)),
        hperm.length_eq ▸ h.others.2⟩
      quorum := (Ledger.hasQuorumWeighted_perm ((hperm.cons v).map s.key)).trans h.quorum
      stays := fun i hi => h.stays i (hmem i hi)
      keeps := h.keeps.imp_right fun hthere i hi => hthere i (hmem i hi) }

/-- **Every peer with the same chain accepts the block**, once there is a quorum. -/
theorem Ready.accepts (hcorrect : crypto.SignCorrect) (h : s.Ready crypto v voters turn)
    {is : List ι} (hnodup : ((v :: is).map s.key).Nodup)
    (hquorum : (s.nodes v).chain.hasQuorumWeighted ((v :: is).map s.key) = true) :
    ∀ i ∈ v :: voters, (s.nodes i).chain.accepts crypto (s.confirmed crypto v is) = true := by
  intro i hi
  obtain ⟨latest, hstanding⟩ := h.standing
  have hsame : SameChain (s.nodes v).toConsensus (s.nodes v).toConsensus := ⟨rfl, rfl, rfl⟩
  have hok : (s.nodes v).acceptable crypto (s.proposed crypto v) = true :=
    (Node.acceptable_proposal_iff hstanding hsame h.pooled.1 h.valid).mpr h.origins
  have hwell : validateBlock crypto (s.nodes v).chain.toLedger (s.proposed crypto v) false
      = true := by
    unfold Consensus.acceptable at hok
    rw [Bool.and_eq_true] at hok
    exact hok.2
  rw [← candidate_signed hnodup]
  refine (Consensus.accepts_candidate_iff hcorrect hstanding (h.same i hi) _ _ ?_).mpr
    ⟨hwell, ?_⟩
  · rw [candidate_signed hnodup]
    unfold confirmed
    rw [origins_signed]
    exact hquorum
  · intro m hm
    obtain ⟨j, -, rfl⟩ := List.mem_map.mp (mem_of_mem_counted hm)
    exact hcorrect _ _

/-- The message that brings the vote of a peer passes the schema. -/
theorem Ready.valid_signed (hformat : crypto.Formatted) (h : s.Ready crypto v voters turn) {i : ι}
    (hi : i ∈ voters) :
    validateMessage (signMessage (s.key v) (s.proposed crypto v).hash
      ((turn i).now, (s.signed crypto v i).vote)) = true := by
  obtain ⟨latest, hstanding⟩ := h.standing
  have hkey : isKeyText (s.key v) = true := hstanding.key_ok
  have hhash : isKeyText (s.proposed crypto v).hash = true := hformat.hash _
  have hsig : isSigText (s.signed crypto v i).sig = true := hformat.sign _ _
  show (decide (1 ≤ (turn i).now) && isKeyText (s.key i)
    && ((s.key v).isEmpty || isKeyText (s.key v))
    && (isKeyText (s.proposed crypto v).hash && isSigText (s.signed crypto v i).sig)) = true
  rw [decide_eq_true (h.now i (List.mem_cons_of_mem v hi)), h.key_ok i hi, hkey, hhash, hsig,
    Bool.or_true]
  rfl

/-- And so does the one that confirms the block. -/
theorem Ready.valid_confirmed (hformat : crypto.Formatted) (h : s.Ready crypto v voters turn)
    {is : List ι} (hinitial : is <+: voters) :
    validateMessage ((s.nodes v).message (turn v).now []
      (.confirmBlock (s.confirmed crypto v is).hash (s.confirmed crypto v is).votes)) = true := by
  obtain ⟨latest, hstanding⟩ := h.standing
  have hnodup : ((v :: is).map s.key).Nodup :=
    h.keys.sublist ((hinitial.sublist.cons_cons v).map s.key)
  have hsigns : ∀ m ∈ is.map (s.signed crypto v), m.valid = true := by
    intro m hm
    obtain ⟨i, hi, rfl⟩ := List.mem_map.mp hm
    rw [SignBlock.valid, Bool.and_eq_true, Bool.and_eq_true]
    exact ⟨h.key_ok i (hinitial.subset hi), hformat.hash _, hformat.sign _ _⟩
  rw [← candidate_signed hnodup]
  refine (Consensus.validateMessage_confirmation_iff hformat hstanding
    (h.now v List.mem_cons_self) _ hsigns).mpr ?_
  show (counted (s.proposed crypto v).hash [s.key v] _).length ≤ 15
  rw [counted_signed hnodup, List.length_map]
  exact le_trans hinitial.length_le h.others.2

/-! ## §8. The round. -/

variable [DecidableEq ι] {ok : Node → Turn → Node.Event → Prop} {s₀ : System ι}

/-- One node takes a turn, and hears from the others only. -/
theorem Reaches.runTurn {s : System ι} {i : ι} {n : Node} (h : Reaches crypto ok s₀ s)
    (hn : s.nodes i = n) {turn : Turn} {e : Node.Event} (hothers : s.FromOthers i e)
    (hok : ok n turn e) :
    ∃ s', Reaches crypto ok s₀ s' ∧ s'.nodes i = n.step crypto turn e
      ∧ ∀ j, j ≠ i → s'.nodes j = s.nodes j :=
  h.runNode (l := [(turn, e)]) hn
    (fun x hx => by rw [List.mem_singleton.mp hx]; exact hothers) ⟨hok, trivial⟩

/-- **Some nodes take a few turns each**, and hear from the others only. -/
theorem Reaches.runEach (l : ι → List (Turn × Node.Event)) :
    ∀ {is : List ι} {s : System ι}, Reaches crypto ok s₀ s → is.Nodup →
      (∀ i ∈ is, ∀ x ∈ l i, ∀ s' : System ι, (∀ j ∉ is, s'.nodes j = s.nodes j) →
        s'.FromOthers i x.2) →
      (∀ i ∈ is, Node.Allowed crypto ok (s.nodes i) (l i)) →
        ∃ s', Reaches crypto ok s₀ s' ∧ (∀ i ∈ is, s'.nodes i = (s.nodes i).run crypto (l i))
          ∧ ∀ j ∉ is, s'.nodes j = s.nodes j
  | [], s, h, _, _, _ => ⟨s, h, fun _ hi => (nomatch hi), fun _ _ => rfl⟩
  | i :: is, s, h, hnodup, hothers, hallowed => by
      obtain ⟨hi, hnodup⟩ := List.nodup_cons.mp hnodup
      obtain ⟨s₁, h₁, hself, hrest⟩ := h.runNode rfl
        (fun x hx => hothers i List.mem_cons_self x hx s fun _ _ => rfl)
        (hallowed i List.mem_cons_self)
      have hne : ∀ j ∈ is, j ≠ i := fun j hj heq => hi (heq ▸ hj)
      obtain ⟨s₂, h₂, hselves, hrest₂⟩ := Reaches.runEach l h₁ hnodup
        (fun j hj x hx s' hs' => hothers j (List.mem_cons_of_mem i hj) x hx s' fun k hk => by
          rw [hs' k fun hmem => hk (List.mem_cons_of_mem i hmem)]
          exact hrest k fun heq => hk (heq ▸ List.mem_cons_self))
        (fun j hj => (hrest j (hne j hj)).symm ▸ hallowed j (List.mem_cons_of_mem i hj))
      refine ⟨s₂, h₂, fun j hj => ?_, fun j hj => ?_⟩
      · rcases List.mem_cons.mp hj with rfl | hj
        · exact (hrest₂ j hi).trans hself
        · rw [hselves j hj, hrest j (hne j hj)]
      · rw [hrest₂ j fun hmem => hj (List.mem_cons_of_mem i hmem)]
        exact hrest j fun heq => hj (heq ▸ List.mem_cons_self)

/-- **The proposal is on its way.** -/
theorem Ready.proposes (h : s.Ready crypto v voters turn) :
    ∃ s₁, Reaches crypto (Node.Sequential crypto) s s₁
      ∧ Gathers (s.proposed crypto v) (s.nodes v).next (s.nodes v) [] (s₁.nodes v)
      ∧ s.proposalMessage crypto v turn ∈ (s₁.nodes v).sent
      ∧ ∀ j, j ≠ v → s₁.nodes j = s.nodes j := by
  have hrun := h.running v List.mem_cons_self
  have hadds := h.adds v List.mem_cons_self
  have hstep := Node.step_timeoutProposeBlock crypto (turn v) hrun
    (h.turnOf v List.mem_cons_self).known h.armed
  have hrefl : Reaches crypto (Node.Sequential crypto) s s := .refl
  have hsequential : Node.Sequential crypto (s.nodes v) (turn v) .timeoutProposeBlock := by
    unfold Node.Sequential
    rw [hstep]
    exact hadds ▸ Nat.zero_le 1
  have hown : s.FromOthers v .timeoutProposeBlock := trivial
  obtain ⟨s₁, h₁, hself, hrest⟩ := hrefl.runTurn rfl hown hsequential
  have hnode : s₁.nodes v = _ := hself.trans hstep
  refine ⟨s₁, h₁, ?_, ?_, hrest⟩
  · rw [hnode]
    refine ⟨hrun, rfl, ?_, hadds, rfl, rfl, rfl, rfl⟩
    rw [List.append_nil]
    exact Consensus.objects_alloc_self
  · rw [hnode]
    exact List.mem_append_right _ (List.mem_singleton.mpr rfl)

/-- **Everybody else has voted.** -/
theorem Ready.votes (hformat : crypto.Formatted) (h : s.Ready crypto v voters turn) :
    ∃ s₂, Reaches crypto (Node.Sequential crypto) s s₂
      ∧ Gathers (s.proposed crypto v) (s.nodes v).next (s.nodes v) [] (s₂.nodes v)
      ∧ (∀ i ∈ voters, Holds (s.proposed crypto v) (s.nodes i) (s₂.nodes i)
        ∧ signMessage (s.key v) (s.proposed crypto v).hash
            ((turn i).now, (s.signed crypto v i).vote) ∈ (s₂.nodes i).sent)
      ∧ ∀ j ∉ v :: voters, s₂.nodes j = s.nodes j := by
  obtain ⟨s₁, h₁, hgathers, hsent, hrest⟩ := h.proposes
  obtain ⟨latest, hstanding⟩ := h.standing
  have hkeys := h.keys
  rw [List.map_cons, List.nodup_cons] at hkeys
  have hne : ∀ i ∈ voters, i ≠ v := by
    rintro i hi rfl
    exact hkeys.1 (List.mem_map_of_mem hi)
  have hother : ∀ i ∈ voters, s.key i ≠ s.key v := by
    intro i hi heq
    exact hkeys.1 (heq ▸ List.mem_map_of_mem hi)
  -- What the validator has sent passes the schema and the check of every peer.
  have hvalid : validateMessage (s.proposalMessage crypto v turn) = true :=
    (Node.validateMessage_proposal_iff hformat hstanding (h.now v List.mem_cons_self) h.pooled.1
      (fun t ht => (validateTx_iff.mp (h.valid t ht)).1) h.origins).mpr h.pooled.2
  have hok : ∀ i ∈ voters, (s.nodes i).acceptable crypto (s.proposed crypto v) = true :=
    fun i hi => (Node.acceptable_proposal_iff hstanding (h.same i (List.mem_cons_of_mem v hi))
      h.pooled.1 h.valid).mpr h.origins
  have hholds : ∀ i ∈ voters,
      let m := (s.nodes i).step crypto (turn i) (.message (s.proposalMessage crypto v turn))
      Holds (s.proposed crypto v) (s.nodes i) m
        ∧ signMessage (s.key v) (s.proposed crypto v).hash
            ((turn i).now, (s.signed crypto v i).vote) ∈ m.sent :=
    fun i hi => Node.holds_of_proposal (h.running i (List.mem_cons_of_mem v hi))
      (h.adds i (List.mem_cons_of_mem v hi)) (h.turnOf i (List.mem_cons_of_mem v hi))
      (hother i hi) rfl rfl hvalid (hok i hi)
  obtain ⟨s₂, h₂, hselves, hrest₂⟩ := h₁.runEach
    (fun i => [(turn i, .message (s.proposalMessage crypto v turn))]) hkeys.2.of_map
    (fun i hi x hx s' hs' => by
      rw [List.mem_singleton.mp hx]
      refine ⟨v, (hne i hi).symm, ?_⟩
      rw [hs' v fun hmem => hne v hmem rfl]
      exact hsent)
    (fun i hi => by
      rw [hrest i (hne i hi)]
      refine ⟨?_, trivial⟩
      show (Node.step crypto _ _ _).adds.length ≤ 1
      rw [(hholds i hi).1.adds]
      exact Nat.zero_le 1)
  refine ⟨s₂, h₂, ?_, fun i hi => ?_, fun j hj => ?_⟩
  · rw [hrest₂ v fun hmem => hne v hmem rfl]
    exact hgathers
  · rw [hselves i hi, hrest i (hne i hi)]
    exact hholds i hi
  · rw [hrest₂ j fun hmem => hj (List.mem_cons_of_mem v hmem)]
    exact hrest j fun heq => hj (heq ▸ List.mem_cons_self)

/-- **The votes make a quorum**: the validator starts its call and confirms the block. -/
theorem Ready.starts (hformat : crypto.Formatted) (hcorrect : crypto.SignCorrect)
    (h : s.Ready crypto v voters turn) :
    ∃ s₃ is, Reaches crypto (Node.Sequential crypto) s s₃ ∧ is ≠ [] ∧ is <+: voters
      ∧ (s.nodes v).chain.hasQuorumWeighted ((v :: is).map s.key) = true
      ∧ Calls (s.confirmed crypto v is) (s.nodes v) (s₃.nodes v)
      ∧ (s.nodes v).message (turn v).now [] (.confirmBlock (s.confirmed crypto v is).hash
          (s.confirmed crypto v is).votes) ∈ (s₃.nodes v).sent
      ∧ (∀ i ∈ voters, Holds (s.proposed crypto v) (s.nodes i) (s₃.nodes i))
      ∧ ∀ j ∉ v :: voters, s₃.nodes j = s.nodes j := by
  obtain ⟨s₂, h₂, hgathers, hvoted, hrest⟩ := h.votes hformat
  obtain ⟨before, i, after, hvoters, hquorum, hfew⟩ := exists_first
    (P := fun is => (s.nodes v).chain.hasQuorumWeighted ((v :: is).map s.key) = true)
    h.others.1 h.quorum
  have hinitial : before ++ [i] <+: voters := ⟨after, by
    rw [hvoters, List.append_assoc, List.singleton_append]⟩
  have hnodup : ((v :: (before ++ [i])).map s.key).Nodup :=
    h.keys.sublist ((hinitial.sublist.cons_cons v).map s.key)
  have hmem : ∀ j ∈ before, j ∈ voters := fun j hj =>
    hinitial.subset (List.mem_append_left _ hj)
  have hi : i ∈ voters := hinitial.subset (List.mem_append_right _ List.mem_cons_self)
  have hkeys := h.keys
  rw [List.map_cons, List.nodup_cons] at hkeys
  have hne : ∀ j ∈ voters, j ≠ v := by
    rintro j hj rfl
    exact hkeys.1 (List.mem_map_of_mem hj)
  have hturn := h.turnOf v List.mem_cons_self
  set vote := fun j => ((turn j).now, (s.signed crypto v j).vote) with hvote
  have hvotes : ∀ js : List ι, ([] ++ (js.map vote).map Prod.snd : List VoteStruct)
      = js.map fun j => (s.signed crypto v j).vote := by
    intro js
    rw [List.nil_append, List.map_map]
    rfl
  -- First the votes before the quorum, then the one that makes it.
  obtain ⟨hcollected, hallowed⟩ : _ ∧ Node.Allowed crypto (Node.Sequential crypto) _ _ :=
    Node.gathers_run hturn rfl (l := before.map vote) hgathers
      (fun x hx => by
        obtain ⟨j, hj, rfl⟩ := List.mem_map.mp hx
        exact h.valid_signed hformat (hmem j hj))
      (by
        rw [hvotes, origins_signed]
        exact hnodup.sublist ((List.sublist_append_left before [i]).cons_cons v |>.map s.key))
      (fun p hp hpne => by
        have hlength := List.prefix_iff_eq_take.mp hp
        rw [← List.map_take] at hlength
        rw [hlength, hvotes, origins_signed]
        refine Bool.eq_false_iff.mpr (hfew _ (List.take_prefix _ _) fun hnil => hpne ?_)
        rw [hlength, hnil, List.map_nil])
  rw [hvotes] at hcollected
  have hnew : (vote i).2.origin ∉ ((s.proposed crypto v).votes
      ++ before.map fun j => (s.signed crypto v j).vote).map VoteStruct.origin := by
    rw [origins_signed]
    rw [← List.cons_append, List.map_append] at hnodup
    intro hseen
    exact (List.nodup_append.mp hnodup).2.2 _ hseen _ List.mem_cons_self rfl
  have hconfirmed : s.confirmed crypto v (before ++ [i]) = { s.proposed crypto v with
      votes := (s.proposed crypto v).votes
        ++ ((before.map fun j => (s.signed crypto v j).vote) ++ [(vote i).2]) } := by
    unfold confirmed
    rw [List.map_append]
    rfl
  obtain ⟨hcalls, hsent⟩ := hcollected.last hturn rfl (h.valid_signed hformat hi) hnew hconfirmed
    (by
      unfold confirmed
      rw [origins_signed]
      exact hquorum)
    (h.accepts hcorrect hnodup hquorum v List.mem_cons_self)
  obtain ⟨s', h', hself', hrest'⟩ := h₂.runNode rfl
    (fun x hx => by
      obtain ⟨y, hy, rfl⟩ := List.mem_map.mp hx
      obtain ⟨j, hj, rfl⟩ := List.mem_map.mp hy
      exact ⟨j, hne j (hmem j hj), (hvoted j (hmem j hj)).2⟩) hallowed
  have hlast : s'.FromOthers v
      (.message (signMessage (s.key v) (s.proposed crypto v).hash (vote i))) :=
    ⟨i, hne i hi, (hrest' i (hne i hi)).symm ▸ (hvoted i hi).2⟩
  obtain ⟨s₃, h₃, hself, hrest₃⟩ := h'.runTurn hself' hlast hcalls.adds_le
  refine ⟨s₃, before ++ [i], h₃, by simp, hinitial, hquorum, ?_, ?_, fun j hj => ?_, fun j hj => ?_⟩
  · rw [hself]
    exact hcalls
  · rw [hself]
    exact hsent
  · rw [hrest₃ j (hne j hj), hrest' j (hne j hj)]
    exact (hvoted j hj).1
  · have hj' : j ≠ v := fun heq => hj (heq ▸ List.mem_cons_self)
    rw [hrest₃ j hj', hrest' j hj', hrest j hj]

/-- **The votes come in this order**, and then every one of them commits the same
block, with the votes of those who made the quorum. -/
theorem Ready.commits (hformat : crypto.Formatted) (hcorrect : crypto.SignCorrect)
    (h : s.Ready crypto v voters turn) :
    ∃ s' b, Reaches crypto (Node.Sequential crypto) s s' ∧ b.tx = (s.nodes v).arrayPoolTx
      ∧ b.height = (s.nodes v).chain.height + 1 ∧ isKeyText b.hash = true
      ∧ b.votes.map VoteStruct.origin <+: (v :: voters).map s.key
      ∧ (∀ i ∈ v :: voters, Commits crypto b (s.nodes i) (s'.nodes i))
      ∧ ∀ j ∉ v :: voters, s'.nodes j = s.nodes j := by
  obtain ⟨s₃, is, h₃, hsome, hinitial, hquorum, hcalls, hsent, hholds, hrest⟩ :=
    h.starts hformat hcorrect
  obtain ⟨latest, hstanding⟩ := h.standing
  set b := s.confirmed crypto v is with hb
  set confirmation := (s.nodes v).message (turn v).now [] (.confirmBlock b.hash b.votes)
    with hconfirmation
  have hnodup : ((v :: is).map s.key).Nodup :=
    h.keys.sublist ((hinitial.sublist.cons_cons v).map s.key)
  have haccepts := h.accepts hcorrect hnodup hquorum
  have hkeys := h.keys
  rw [List.map_cons, List.nodup_cons] at hkeys
  have hother : ∀ i ∈ voters, s.key v ≠ s.key i := by
    intro i hi heq
    exact hkeys.1 (heq ▸ List.mem_map_of_mem hi)
  have hne : ∀ i ∈ voters, i ≠ v := fun i hi heq => hother i hi (heq ▸ rfl)
  have horigins : b.votes.map VoteStruct.origin = (v :: is).map s.key := origins_signed is
  have hheight : b.height = (s.nodes v).chain.height + 1 := by
    show ((s.nodes v).chain.latestBlock.getD default).height + 1 = _
    rw [hstanding.latest_eq, ← hstanding.height_eq]
    rfl
  have hledger : ∀ i ∈ v :: voters, (s.nodes i).chain.toLedger = (s.nodes v).chain.toLedger :=
    fun i hi => (h.same i hi).ledger
  have hkeeps : ∀ i ∈ v :: voters, (s.nodes i).KeepsNetwork b := by
    intro i hi
    refine h.keeps.imp id fun hthere pk hpk => Or.inr ?_
    rw [hledger i hi]
    exact hthere i hi pk hpk
  have hvalid : validateMessage confirmation = true := h.valid_confirmed hformat hinitial
  -- Everybody else hears of it and goes through with it, and then the validator does.
  have hgo : ∀ i ∈ voters, Calls b (s.nodes i)
      ((s₃.nodes i).step crypto (turn i) (.message confirmation)) := by
    intro i hi
    have hpos : 0 < (s.proposed crypto v).height := Nat.succ_pos _
    exact (hholds i hi).calls (h.turnOf i (List.mem_cons_of_mem v hi)) rfl rfl hvalid hpos
      (haccepts i (List.mem_cons_of_mem v hi))
  have hfollow : ∀ i ∈ voters, Commits crypto b (s.nodes i)
      ((s₃.nodes i).run crypto ((turn i, .message confirmation) :: completing (turn i) b)) := by
    intro i hi
    have hi' : i ∈ v :: voters := List.mem_cons_of_mem v hi
    refine (hgo i hi).commits (h.turnOf i hi').online (hkeeps i hi') (hother i hi) ?_ ?_
    · rw [horigins]
      exact List.mem_cons_self
    · rw [hledger i hi']
      exact h.stays v List.mem_cons_self
  obtain ⟨s₄, h₄, hselves, hrest₄⟩ := h₃.runEach
    (fun i => (turn i, .message confirmation) :: completing (turn i) b) hkeys.2.of_map
    (fun i hi x hx s' hs' => by
      rcases List.mem_cons.mp hx with rfl | hx
      · refine ⟨v, (hne i hi).symm, ?_⟩
        rw [hs' v fun hmem => hne v hmem rfl]
        exact hsent
      · rw [List.eq_of_mem_replicate hx]
        trivial)
    (fun i hi => ⟨(hgo i hi).adds_le, (Node.allowed_resumeAdd (hgo i hi).adds_le).1⟩)
  have hself₄ : s₄.nodes v = s₃.nodes v := hrest₄ v fun hmem => hne v hmem rfl
  obtain ⟨s₅, h₅, hself, hrest₅⟩ := h₄.runNode (l := completing (turn v) b) hself₄
    (fun x hx => by
      rw [List.eq_of_mem_replicate hx]
      trivial)
    (Node.allowed_resumeAdd hcalls.adds_le).1
  have hlead : Commits crypto b (s.nodes v) (s₅.nodes v) := by
    obtain ⟨i, rest, rfl⟩ := List.exists_cons_of_ne_nil hsome
    have hi : i ∈ voters := hinitial.subset List.mem_cons_self
    rw [hself]
    refine hcalls.commits (h.turnOf v List.mem_cons_self).online (hkeeps v List.mem_cons_self)
      (hother i hi).symm ?_ ?_
    · rw [horigins]
      exact List.mem_map_of_mem (List.mem_cons_of_mem v List.mem_cons_self)
    · exact h.stays i (List.mem_cons_of_mem v hi)
  refine ⟨s₅, b, h₅, rfl, hheight, hformat.hash _, ?_, fun i hi => ?_, fun j hj => ?_⟩
  · rw [horigins]
    exact (List.cons_prefix_cons.mpr ⟨rfl, hinitial⟩).map s.key
  · rcases List.mem_cons.mp hi with rfl | hi
    · exact hlead
    · rw [hrest₅ i (hne i hi), hselves i hi]
      exact hfollow i hi
  · rw [hrest₅ j fun heq => hj (heq ▸ List.mem_cons_self),
      hrest₄ j fun hmem => hj (List.mem_cons_of_mem v hmem), hrest j hj]

open Blockchain (sampleStart)

/-- Signatures that tell the keys apart, and texts by their lengths. -/
def keyedCrypto : Crypto :=
  let sig := fun (pk d : Text) =>
    label 86 (4 * (d.length % 16) + [keyOf 0, keyOf 1, keyOf 2].idxOf pk)
  { Node.poolCrypto with
    sign := sig
    verifySignature := fun pk s d => decide (s = sig pk d) }

theorem keyedCrypto_formatted : keyedCrypto.Formatted := by
  have hsigs : ∀ i < 64, isSigText (label 86 i) = true := by decide +kernel
  refine ⟨Node.poolCrypto_formatted.hash, fun pk d => hsigs _ ?_⟩
  have hlength : d.length % 16 < 16 := Nat.mod_lt _ (by decide)
  have hindex : [keyOf 0, keyOf 1, keyOf 2].idxOf pk ≤ 3 := List.idxOf_le_length
  omega

theorem keyedCrypto_signCorrect : keyedCrypto.SignCorrect := fun _ _ => decide_eq_true rfl

/-- Node 1 has stacked two notes, one of which is in flight, and it is its turn. -/
def readyStart : System (Fin 3) :=
  { nodes := fun i => (Node.start (sampleStart i)).run keyedCrypto
      ((Node.allOnline, .p2pNetwork) :: if i = 1 then
        [(Node.allOnline, .stackTx [forkNote 1] ['t']), (Node.allOnline, .stackTx [forkNote 2] ['u'])]
      else [])
    served := [] }

theorem ready_readyStart : readyStart.Ready keyedCrypto 1 [2, 0] fun _ => Node.allOnline where
  running := by decide +kernel
  adds := by decide +kernel
  same := fun i hi => by
    have hledger : ∀ i ∈ [1, 2, 0], (readyStart.nodes i).chain.toLedger
        = (readyStart.nodes 1).chain.toLedger := by decide +kernel
    have hheight : ∀ i ∈ [1, 2, 0], (readyStart.nodes i).chain.height
        = (readyStart.nodes 1).chain.height := by decide +kernel
    have hlatest : ∀ i ∈ [1, 2, 0], (readyStart.nodes i).chain.latestBlock.map BlockStruct.hash
        = (readyStart.nodes 1).chain.latestBlock.map BlockStruct.hash := by decide +kernel
    exact ⟨hledger i hi, hheight i hi, hlatest i hi⟩
  turnOf := fun i hi => by
    have honline : ∀ i ∈ [1, 2, 0], (readyStart.nodes i).arrayNetwork ≠ [] := by decide +kernel
    have hindex : ∀ i ∈ [1, 2, 0], (readyStart.nodes i).arrayNetwork[
        (readyStart.nodes i).chain.height % (readyStart.nodes i).arrayNetwork.length]?
        = some (readyStart.key 1) := by decide +kernel
    have hknown : ∀ i ∈ [1, 2, 0], (readyStart.nodes i).canBroadcast = true := by decide +kernel
    exact ⟨⟨honline i hi, fun _ _ => rfl⟩, hknown i hi, hindex i hi⟩
  now := fun _ _ => Nat.le_refl 1
  key_ok := by decide +kernel
  keys := by decide +kernel
  standing := ⟨(readyStart.nodes 1).chain.latestBlock.getD default, by decide +kernel,
    by decide +kernel, by decide +kernel, by decide +kernel⟩
  armed := by decide +kernel
  pooled := by decide +kernel
  valid := by decide +kernel
  origins := by decide +kernel
  others := by decide +kernel
  quorum := by decide +kernel
  stays := by decide +kernel
  keeps := Or.inr (by decide +kernel)

end System

end Divachain
