/-
  Divachain.Net.Progress — what waits is committed.

  A round leaves the network where it was, one block higher: nothing is under
  way, the timer for the next transaction is set at every node, and what waits
  there is in the order in which it was taken.  So the next one can go off from
  any of them.

  Main results:
    * `exists_launched` — what goes off at a node gets into the pool of the
      validator;
    * `Level.round` — a round, from one such state to the next;
    * `drains` — the nodes in any order, each with what waits there, one by one.
-/
import Divachain.Chain.Genesis
import Divachain.Chain.Removal
import Divachain.Net.Credits
import Divachain.Net.Round

namespace Divachain

open DataKit

/-! ## §1. Commands that do no harm. -/

/-- Neither a later ledger nor a later height makes the command invalid, and it
takes nothing away from a peer. -/
def Command.Harmless (c : Command) : Prop :=
  match c.body with
  | .data .. => True
  | .modifyStake _ _ stake => 0 ≤ stake
  | .addPeer .. | .removePeer .. | .decision .. => False

instance (c : Command) : Decidable c.Harmless := by
  unfold Command.Harmless
  split <;> infer_instance

namespace Command.Harmless

variable {c : Command}

theorem validateCommand (h : c.Harmless) (l : Ledger) (height : Nat) (origin : Text) :
    Divachain.validateCommand l height origin c = true := by
  unfold Command.Harmless at h
  unfold Divachain.validateCommand
  generalize c.body = body at h ⊢
  cases body with
  | data => rfl
  | modifyStake => rfl
  | _ => exact h.elim

theorem hasPeer_apply (h : c.Harmless) (l : Ledger) (origin publicKey : Text) :
    (l.apply (origin, c)).hasPeer publicKey = l.hasPeer publicKey := by
  rw [Ledger.hasPeer_apply]
  unfold Command.Harmless at h
  unfold Ledger.moveOf
  dsimp only
  generalize c.body = body at h ⊢
  cases body with
  | data => rfl
  | modifyStake => rfl
  | _ => exact h.elim

/-- The stakes together do not sink. -/
theorem total_le_apply (h : c.Harmless) (l : Ledger) (origin : Text) :
    l.quorumWeighted ≤ (l.apply (origin, c)).quorumWeighted := by
  have hchange := l.change_apply (origin, c)
  unfold Command.Harmless at h
  dsimp only at hchange
  generalize l.apply (origin, c) = l', c.body = body at hchange h ⊢
  cases hchange with
  | none _ => exact le_refl _
  | join _ => exact h.elim
  | leave _ => exact h.elim
  | tally _ => exact le_refl _
  | @effect publicKey ident stake peer _ =>
      have hclamp : 0 ≤ Ledger.clampStake peer stake := by
        unfold Ledger.clampStake
        have hstake : 0 ≤ stake := h
        split <;> omega
      show l.quorumWeighted ≤ l.quorumWeighted + _
      omega
  | data => exact le_refl _
  | decision _ => exact h.elim

end Command.Harmless

/-- **Such commands** keep the peers and do not lower the total. -/
theorem foldl_harmless (origin : Text) :
    ∀ {cs : List Command} {l : Ledger}, (∀ c ∈ cs, c.Harmless) →
      let l' := (cs.map fun c => (origin, c)).foldl Ledger.apply l
      (∀ publicKey, l'.hasPeer publicKey = l.hasPeer publicKey)
        ∧ l.quorumWeighted ≤ l'.quorumWeighted
  | [], _, _ => ⟨fun _ => rfl, le_refl _⟩
  | c :: cs, l, h => by
      have hc := h c List.mem_cons_self
      obtain ⟨hpeers, htotal⟩ := foldl_harmless origin (l := l.apply (origin, c))
        fun d hd => h d (List.mem_cons_of_mem c hd)
      exact ⟨fun publicKey => (hpeers publicKey).trans (hc.hasPeer_apply l origin publicKey),
        (hc.total_le_apply l origin).trans htotal⟩

theorem applyTx_harmless {l : Ledger} {tx : TransactionStruct} (h : ∀ c ∈ tx.commands, c.Harmless) :
    (∀ publicKey, (l.applyTx [tx]).hasPeer publicKey = l.hasPeer publicKey)
      ∧ l.quorumWeighted ≤ (l.applyTx [tx]).quorumWeighted := by
  unfold Ledger.applyTx commandsOf
  rw [List.flatMap_singleton]
  exact foldl_harmless tx.origin h

namespace Node

variable {crypto : Crypto} {n m : Node} {turn : Turn} {v : Text}

/-! ## §2. The way of a transaction into the pool. -/

/-- The node is where it was, apart from what it has posted and what waits. -/
structure Alike (n m : Node) : Prop where
  core : m.toConsensus = n.toConsensus
  running : m.halted = false
  arrayNetwork : m.arrayNetwork = n.arrayNetwork

theorem Alike.refl (h : n.halted = false) : Alike n n := ⟨rfl, h, rfl⟩

theorem Alike.trans {k : Node} (h : Alike n m) (h' : Alike m k) : Alike n k :=
  ⟨h'.core.trans h.core, h'.running, h'.arrayNetwork.trans h.arrayNetwork⟩

theorem Alike.adds_le (h : Alike n m) (hn : n.adds = []) : m.adds.length ≤ 1 := by
  rw [congrArg Consensus.adds h.core, hn]
  exact Nat.zero_le 1

theorem Alike.turnOf (h : Alike n m) (hturn : n.TurnOf turn v) : m.TurnOf turn v :=
  hturn.congr (congrArg Consensus.chain h.core) h.arrayNetwork

/-- The transaction is alone in the pool. -/
structure Pools (tx : TransactionStruct) (n m : Node) : Prop extends Alike n m where
  pool : m.arrayPoolTx = [tx]
  timer : m.timeoutProposeBlock = true

/-- The message is on its way. -/
structure Posts (x : Message) (n m : Node) : Prop extends Alike n m where
  posted : x ∈ m.posted

theorem processAddTx_pools (hidle : Idle n) (origin : Text) {tx : TransactionStruct}
    (htx : validateTx crypto n.chain.toLedger (n.chain.height + 1) tx = true) :
    Pools tx n (n.processAddTx crypto origin (n.chain.height + 1) tx)
      ∧ (n.processAddTx crypto origin (n.chain.height + 1) tx).waiting = n.waiting := by
  have hpoolable : n.poolable crypto origin (n.chain.height + 1) tx = true := by
    refine (poolable_iff hidle.block ⟨origin, n.chain.height + 1, tx⟩).mpr ⟨?_, ?_⟩
    · unfold fits
      rw [htx, Bool.and_true]
      exact decide_eq_true rfl
    · rw [hidle.current]
      exact List.not_mem_nil
  unfold processAddTx
  rw [if_pos hpoolable]
  refine ⟨⟨⟨rfl, hidle.running, rfl⟩, ?_, rfl⟩, rfl⟩
  show sortPool (n.current.set origin tx).values = [tx]
  have hentries : (n.current.set origin tx).entries = [(origin, tx)] := by
    rw [hidle.current]
    exact OrdMap.entries_set_of_not_has rfl tx
  unfold OrdMap.values
  rw [hentries]
  rfl

/-- The record in flight once it has gone off. -/
def flown (crypto : Crypto) (n : Node) (r : RecordStack) : RecordTx :=
  { height := n.chain.height + 1, tx := n.signTx crypto r }

/-- `doAddTx` takes the first record that waits. -/
theorem doAddTx_eq (hrun : n.halted = false) {r : RecordStack} {rest : List RecordStack}
    (hwaits : n.waiting = (none, r :: rest)) (hturn : n.TurnOf turn v) :
    n.doAddTx crypto turn
      = { n with
          stackTransaction := rest
          ownTx := some (n.flown crypto r)
          validator := v : Node }.submit crypto turn (n.chain.height + 1) (n.signTx crypto r) := by
  obtain ⟨hown, hstack⟩ := Prod.ext_iff.mp hwaits
  unfold doAddTx
  rw [show n.ownTx = none from hown, show n.stackTransaction = r :: rest from hstack]
  set k : Node := { n with stackTransaction := rest, ownTx := some (n.flown crypto r) } with hk
  have hrun' : k.halted = false := hrun
  have hturn' : k.TurnOf turn v := hturn.congr rfl rfl
  exact processMessage_of_finds hrun' hturn'.finds _

/-- The event makes the first record go off; `rest` waits behind it. -/
def Launches (crypto : Crypto) (n : Node) (turn : Turn) (e : Event) (r : RecordStack)
    (rest : List RecordStack) : Prop :=
  ∃ k : Node, n.step crypto turn e = k.doAddTx crypto turn ∧ Alike n k ∧ Idle k
    ∧ k.waiting = (none, r :: rest)

/-- The timer does, -/
theorem launches_timeoutAddTx (crypto : Crypto) (turn : Turn) (hidle : Idle n)
    (harmed : n.timeoutAddTx = true) {r : RecordStack} {rest : List RecordStack}
    (hwaits : n.waiting = (none, r :: rest)) : Launches crypto n turn .timeoutAddTx r rest := by
  refine ⟨{ n with timeoutAddTx := false }, ?_, ⟨rfl, hidle.running, rfl⟩,
    ⟨hidle.running, hidle.block, hidle.current, hidle.arrayPoolTx, hidle.timer⟩, hwaits⟩
  rw [step_of_running crypto hidle.running]
  exact if_pos harmed

/-- and a call of the API does where nothing has waited. -/
theorem launches_stackTx (hidle : Idle n) (hturn : n.TurnOf turn v)
    (hwaits : n.waiting = (none, [])) {commands : List Command} {ident : Text}
    (htakes : Takes crypto n (stackRecord turn commands ident)) :
    Launches crypto n turn (.stackTx commands ident) (stackRecord turn commands ident) [] := by
  set r := stackRecord turn commands ident with hr
  obtain ⟨hown, hstack⟩ := Prod.ext_iff.mp hwaits
  refine ⟨{ n with
      stackTransaction := n.stackTransaction ++ [r]
      accepted := n.accepted ++ [r] }, ?_, ⟨rfl, hidle.running, rfl⟩,
    ⟨hidle.running, hidle.block, hidle.current, hidle.arrayPoolTx, hidle.timer⟩, ?_⟩
  -- the broadcast returns, and there is nothing to catch
  · have hruns : (n.stackTx crypto turn commands ident).halted = false := by
      by_contra hthrows
      exact ((stack_halted_iff crypto n turn hidle.running (numbered commands) ident).mp
        (Bool.not_eq_false _ ▸ hthrows)).2 hturn.deliverable
    rw [step_of_running crypto hidle.running, react, rescue_of_running hruns]
    exact if_pos htakes
  · show (n.ownTx, n.stackTransaction ++ [r]) = _
    rw [show n.ownTx = none from hown, show n.stackTransaction = [] from hstack]
    rfl

section

variable {e : Event} {r : RecordStack} {rest : List RecordStack}

theorem Alike.signTx_eq (h : Alike n m) (r : RecordStack) : m.signTx crypto r = n.signTx crypto r :=
  signTx_congr (congrArg (fun c => c.chain.publicKey) h.core)
    (congrArg (fun c => c.chain.height) h.core) r

theorem Alike.flown_eq (h : Alike n m) (r : RecordStack) : m.flown crypto r = n.flown crypto r := by
  unfold flown
  rw [h.signTx_eq, congrArg (fun c => c.chain.height) h.core]

/-- **The validator puts its own transaction into the pool.** -/
theorem Launches.self (h : Launches crypto n turn e r rest) (hturn : n.TurnOf turn v)
    (hv : n.chain.publicKey = v)
    (htx : validateTx crypto n.chain.toLedger (n.chain.height + 1) (n.signTx crypto r) = true) :
    Pools (n.signTx crypto r) n (n.step crypto turn e)
      ∧ (n.step crypto turn e).waiting = (some (n.flown crypto r), rest) := by
  obtain ⟨k, hstep, halike, hidle, hwaits⟩ := h
  rw [← halike.signTx_eq, ← halike.flown_eq]
  rw [← halike.signTx_eq, ← show k.chain = n.chain from congrArg Consensus.chain halike.core] at htx
  rw [← show k.chain = n.chain from congrArg Consensus.chain halike.core] at hv
  rw [hstep, doAddTx_eq hidle.running hwaits (halike.turnOf hturn)]
  unfold submit
  rw [if_pos (show isValidator _ _ = true from decide_eq_true hv)]
  set m : Node := { k with
    stackTransaction := rest
    ownTx := some (k.flown crypto r)
    validator := v } with hm
  have hidle' : Idle m :=
    ⟨hidle.running, hidle.block, hidle.current, hidle.arrayPoolTx, hidle.timer⟩
  obtain ⟨hpools, hwaiting⟩ := processAddTx_pools (n := m) hidle' k.chain.publicKey htx
  have hlike : Alike n (m.processAddTx crypto k.chain.publicKey (k.chain.height + 1)
      (k.signTx crypto r)) :=
    halike.trans ⟨hpools.core, hpools.running, hpools.arrayNetwork⟩
  exact ⟨⟨⟨hlike.core, hlike.running, hlike.arrayNetwork⟩, hpools.pool, hpools.timer⟩, hwaiting⟩

/-- **Everybody else sends it to the validator.** -/
theorem Launches.other (h : Launches crypto n turn e r rest) (hturn : n.TurnOf turn v)
    (hv : n.chain.publicKey ≠ v) :
    Posts (n.message turn.now v (.addTx (n.chain.height + 1) (n.signTx crypto r))) n
        (n.step crypto turn e)
      ∧ (n.step crypto turn e).waiting = (some (n.flown crypto r), rest) := by
  obtain ⟨k, hstep, halike, hidle, hwaits⟩ := h
  have hchain : k.chain = n.chain := congrArg Consensus.chain halike.core
  have hmessage : n.message turn.now v (.addTx (n.chain.height + 1) (n.signTx crypto r))
      = k.message turn.now v (.addTx (k.chain.height + 1) (k.signTx crypto r)) := by
    unfold Consensus.message
    rw [halike.signTx_eq, hchain]
  rw [hmessage, ← halike.flown_eq, hstep, doAddTx_eq hidle.running hwaits (halike.turnOf hturn)]
  unfold submit
  split
  next hself => exact absurd (hchain ▸ of_decide_eq_true hself) hv
  next =>
    rw [post_of_known (n := { k with
      stackTransaction := rest
      ownTx := some (k.flown crypto r)
      validator := v }) (halike.turnOf hturn).known]
    rw [andThen_of_running _ setupRetry]
    · exact ⟨⟨halike.trans ⟨rfl, hidle.running, rfl⟩,
        List.mem_append_right _ List.mem_cons_self⟩, rfl⟩
    · exact hidle.running

end

/-- **The validator takes it.** -/
theorem step_addTx (hidle : Idle n) (hturn : n.TurnOf turn v) (hv : n.chain.publicKey = v)
    {x : Message} {tx : TransactionStruct} (hdata : x.data = .addTx (n.chain.height + 1) tx)
    (hvalid : validateMessage x = true)
    (htx : validateTx crypto n.chain.toLedger (n.chain.height + 1) tx = true) :
    Pools tx n (n.step crypto turn (.message x))
      ∧ (n.step crypto turn (.message x)).waiting = n.waiting := by
  rw [step_of_running crypto hidle.running, react, if_pos hvalid]
  unfold processMessage
  rw [hdata]
  dsimp only
  rw [processMessage_of_finds hidle.running hturn.finds,
    if_pos (show isValidator _ _ = true from decide_eq_true hv)]
  have hidle' : Idle { n with validator := v } :=
    ⟨hidle.running, hidle.block, hidle.current, hidle.arrayPoolTx, hidle.timer⟩
  obtain ⟨hpools, hwaiting⟩ :=
    processAddTx_pools (n := { n with validator := v }) hidle' x.origin htx
  exact ⟨⟨⟨hpools.core, hpools.running, hpools.arrayNetwork⟩, hpools.pool, hpools.timer⟩, hwaiting⟩

/-- The message that brings a transaction passes the schema if the transaction does. -/
theorem validateMessage_addTx (horigin : isKeyText n.chain.publicKey = true)
    (hv : isKeyText v = true) {now height : Nat} (hnow : 1 ≤ now) (hheight : 1 ≤ height)
    {tx : TransactionStruct} (htx : tx.valid = true) :
    validateMessage (n.message now v (.addTx height tx)) = true := by
  have hcontent : MessageData.valid (.addTx height tx) = true := by
    show (decide (1 ≤ height) && tx.valid) = true
    rw [htx, Bool.and_true]
    exact decide_eq_true hheight
  show (decide (1 ≤ now) && isKeyText n.chain.publicKey && (v.isEmpty || isKeyText v)
    && MessageData.valid (.addTx height tx)) = true
  rw [horigin, hv, hcontent, Bool.or_true, decide_eq_true hnow]
  rfl

/-- **What has been taken can be sent at any later height.** -/
theorem takes_of_harmless (hformat : crypto.Formatted) (hcorrect : crypto.SignCorrect)
    {r : RecordStack} (h : Takes crypto n r) (hharmless : ∀ c ∈ r.commands, c.Harmless)
    (hkey : m.chain.publicKey = n.chain.publicKey) : Takes crypto m r := by
  obtain ⟨hdraft, -, -⟩ := (validateTx_make_iff hformat hcorrect).mp h
  exact (validateTx_make_iff hformat hcorrect).mpr ⟨hkey ▸ hdraft, Nat.succ_pos _,
    fun c hc => (hharmless c hc).validateCommand _ _ _⟩

end Node

/-! ## §3. The network between two rounds. -/

/-- All peers have a quorum if there is stake. -/
theorem Accounted.hasQuorumWeighted_of_perm {l : Ledger} (hl : Accounted l) {keys : List Text}
    (hperm : keys.Perm l.mapPeer.keys) (h : 0 < l.quorumWeighted) :
    l.hasQuorumWeighted keys = true := by
  rw [Ledger.hasQuorumWeighted_perm hperm, Ledger.hasQuorumWeighted, hl.weightOf_keys]
  exact decide_eq_true (by omega)

namespace System

open Node (Idle Standing SameChain Commits Alike Pools Launches Takes)

variable {ι : Type} {crypto : Crypto} {s s' : System ι} {members : List ι} {turn : ι → Turn}
  {v i : ι}

/-- **The nodes have one chain**, are its peers, and have gathered the network. -/
structure Aligned (s : System ι) (members : List ι) : Prop where
  same : ∀ i ∈ members, ∀ j ∈ members, SameChain (s.nodes i).toConsensus (s.nodes j).toConsensus
  standing : ∀ i ∈ members, ∃ latest, Standing (s.nodes i).toConsensus latest
  arrayNetwork : ∀ i ∈ members,
    (s.nodes i).arrayNetwork = (members.map s.key).insertionSort (· ≤ ·)
  accounted : ∀ i ∈ members, Accounted (s.nodes i).chain.toLedger
  peers : ∀ i ∈ members, ∀ k, (s.nodes i).chain.hasPeer k = true ↔ k ∈ members.map s.key
  staked : ∀ i ∈ members, 0 < (s.nodes i).chain.quorumWeighted
  keys : (members.map s.key).Nodup
  size : 2 ≤ members.length ∧ members.length ≤ MAX_NETWORK_SIZE

/-- Nothing is under way. -/
structure Level (s : System ι) (members : List ι) : Prop extends Aligned s members where
  idle : ∀ i ∈ members, Idle (s.nodes i)
  adds : ∀ i ∈ members, (s.nodes i).adds = []
  ownTx : ∀ i ∈ members, (s.nodes i).ownTx = none

/-- And the timer for the next transaction is set. -/
structure Rested (s : System ι) (members : List ι) : Prop extends Level s members where
  timeoutAddTx : ∀ i ∈ members, (s.nodes i).timeoutAddTx = true

/-- All of them are online. -/
structure Sees (s : System ι) (members : List ι) (turn : ι → Turn) : Prop where
  online : ∀ i ∈ members, ∀ j ∈ members, (turn i).isOnline (s.key j) = true
  now : ∀ i ∈ members, 1 ≤ (turn i).now

/-- No signature is made by two of them. -/
def Apart (s : System ι) (crypto : Crypto) (members : List ι) : Prop :=
  ∀ i ∈ members, ∀ j ∈ members, j ≠ i → ∀ d d', crypto.sign (s.key i) d ≠ crypto.sign (s.key j) d'

theorem Apart.congr (h : s.Apart crypto members) (hkey : ∀ i ∈ members, s'.key i = s.key i) :
    s'.Apart crypto members := by
  intro i hi j hj hji
  rw [hkey i hi, hkey j hj]
  exact h i hi j hj hji

theorem Sees.congr (h : s.Sees members turn) (hkey : ∀ i ∈ members, s'.key i = s.key i) :
    s'.Sees members turn :=
  ⟨fun i hi j hj => hkey j hj ▸ h.online i hi j hj, h.now⟩

theorem Aligned.key_ok (h : s.Aligned members) (hi : i ∈ members) : isKeyText (s.key i) = true := by
  obtain ⟨latest, hstanding⟩ := h.standing i hi
  exact hstanding.key_ok

/-- The nodes are as many as the peers. -/
theorem Aligned.perm_keys (h : s.Aligned members) (hi : i ∈ members) :
    (members.map s.key).Perm (s.nodes i).chain.mapPeer.keys := by
  refine (List.perm_ext_iff_of_nodup h.keys (s.nodes i).chain.mapPeer.keys_nodup).mpr fun k => ?_
  exact (h.peers i hi k).symm.trans (OrdMap.has_iff _ _)

/-- The network has peers only. -/
theorem Aligned.hasPeer (h : s.Aligned members) (hi : i ∈ members) {k : Text}
    (hk : k ∈ (s.nodes i).arrayNetwork) : (s.nodes i).chain.hasPeer k = true := by
  rw [h.arrayNetwork i hi] at hk
  exact (h.peers i hi k).mpr ((List.perm_insertionSort _ _).mem_iff.mp hk)

/-- **It is somebody's turn**, and all agree on it. -/
theorem Aligned.exists_validator (h : s.Aligned members) (hsees : s.Sees members turn) :
    ∃ v ∈ members, ∀ i ∈ members, (s.nodes i).TurnOf (turn i) (s.key v) := by
  set array := (members.map s.key).insertionSort (· ≤ ·) with harray
  have hperm : array.Perm (members.map s.key) := List.perm_insertionSort _ _
  have hlength : array.length = members.length := by
    rw [hperm.length_eq, List.length_map]
  obtain ⟨i₀, hi₀⟩ := List.exists_mem_of_length_pos (Nat.zero_lt_of_lt h.size.1)
  set height := (s.nodes i₀).chain.height with hheight
  have hlt : height % array.length < array.length :=
    Nat.mod_lt _ (by rw [hlength]; exact Nat.zero_lt_of_lt h.size.1)
  obtain ⟨v, hv, hkey⟩ := List.mem_map.mp (hperm.mem_iff.mp (List.getElem_mem hlt))
  refine ⟨v, hv, fun i hi => ⟨⟨?_, ?_⟩, ?_, ?_⟩⟩
  · rw [h.arrayNetwork i hi]
    exact List.ne_nil_of_length_pos (Nat.zero_lt_of_lt hlt)
  · intro k hk
    rw [h.arrayNetwork i hi] at hk
    obtain ⟨j, hj, rfl⟩ := List.mem_map.mp (hperm.mem_iff.mp hk)
    exact hsees.online i hi j hj
  · exact Node.canBroadcast_iff.mpr fun k hk => Or.inr (h.hasPeer hi hk)
  · rw [h.arrayNetwork i hi, (h.same i₀ hi₀ i hi).height, ← hheight, ← harray,
      List.getElem?_eq_getElem hlt, hkey]

/-- What only waits is not seen from the chain. -/
theorem Aligned.congr (h : s.Aligned members)
    (halike : ∀ j ∈ members, Alike (s.nodes j) (s'.nodes j)) : s'.Aligned members := by
  have hcore : ∀ j ∈ members, (s'.nodes j).toConsensus = (s.nodes j).toConsensus :=
    fun j hj => (halike j hj).core
  have hkeys : members.map s'.key = members.map s.key :=
    List.map_congr_left fun j hj => congrArg (fun c => c.chain.publicKey) (hcore j hj)
  refine
    { same := fun j hj k hk => ?_
      standing := fun j hj => ?_
      arrayNetwork := fun j hj => ?_
      accounted := fun j hj => ?_
      peers := fun j hj k => ?_
      staked := fun j hj => ?_
      keys := hkeys ▸ h.keys
      size := h.size }
  · rw [hcore j hj, hcore k hk]
    exact h.same j hj k hk
  · rw [hcore j hj]
    exact h.standing j hj
  · rw [(halike j hj).arrayNetwork, hkeys]
    exact h.arrayNetwork j hj
  · rw [hcore j hj]
    exact h.accounted j hj
  · rw [hcore j hj, hkeys]
    exact h.peers j hj k
  · rw [hcore j hj]
    exact h.staked j hj

/-! ## §4. From the stack of a node into the pool of the validator. -/

/-- The transaction of node `i` is in the pool of `v`, and nothing else has happened. -/
structure Launched (crypto : Crypto) (members : List ι) (v i : ι) (r : RecordStack)
    (rest : List RecordStack) (s s' : System ι) : Prop where
  pools : Pools ((s.nodes i).signTx crypto r) (s.nodes v) (s'.nodes v)
  alike : ∀ j ∈ members, Alike (s.nodes j) (s'.nodes j)
  waits : (s'.nodes i).waiting = (some ((s.nodes i).flown crypto r), rest)
  others : ∀ j, j ≠ i → (s'.nodes j).waiting = (s.nodes j).waiting
  outside : ∀ j ∉ members, s'.nodes j = s.nodes j

variable {r : RecordStack} {rest : List RecordStack}

/-- One of the nodes takes a turn that leaves it alike. -/
theorem alike_of_self {s₁ : System ι} (h : ∀ j ∈ members, Alike (s.nodes j) (s₁.nodes j))
    (hself : Alike (s.nodes i) (s'.nodes i)) (hrest : ∀ j, j ≠ i → s'.nodes j = s₁.nodes j) :
    ∀ j ∈ members, Alike (s.nodes j) (s'.nodes j) := by
  intro j hj
  by_cases hji : j = i
  · exact hji ▸ hself
  · rw [hrest j hji]
    exact h j hj

/-- **What goes off at a node gets into the pool of the validator.** -/
theorem Level.exists_launched [DecidableEq ι] (h : s.Level members)
    (hsees : s.Sees members turn) (hv : v ∈ members)
    (hturn : ∀ i ∈ members, (s.nodes i).TurnOf (turn i) (s.key v)) (hi : i ∈ members)
    {e : Node.Event} (hown : s.FromOthers i e)
    (hlaunch : Launches crypto (s.nodes i) (turn i) e r rest)
    (htakes : Takes crypto (s.nodes i) r) :
    ∃ s', Reaches crypto (Node.Sequential crypto) s s'
      ∧ Launched crypto members v i r rest s s' := by
  have hrefl : Reaches crypto (Node.Sequential crypto) s s := .refl
  have hfirst : ∀ j ∈ members, Alike (s.nodes j) (s.nodes j) :=
    fun j hj => .refl (h.idle j hj).running
  by_cases hkey : s.key i = s.key v
  -- The validator need not send it.
  · obtain rfl : i = v := List.inj_on_of_nodup_map h.keys hi hv hkey
    obtain ⟨hpools, hwaits⟩ := hlaunch.self (hturn i hi) rfl htakes
    obtain ⟨s', hs', hself, hrest⟩ := hrefl.runTurn rfl hown
      (hpools.toAlike.adds_le (h.adds i hi))
    rw [← hself] at hpools hwaits
    exact ⟨s', hs', hpools, alike_of_self hfirst hpools.toAlike hrest, hwaits,
      fun j hj => congrArg Node.waiting (hrest j hj),
      fun j hj => hrest j fun heq => hj (heq ▸ hi)⟩
  · have hne : v ≠ i := fun heq => hkey (heq ▸ rfl)
    obtain ⟨hposts, hwaits⟩ := hlaunch.other (hturn i hi) hkey
    obtain ⟨s₁, h₁, hself, hrest⟩ := hrefl.runTurn rfl hown
      (hposts.toAlike.adds_le (h.adds i hi))
    rw [← hself] at hposts hwaits
    -- It takes what it is sent, as it has the same chain.
    have hsame := h.same i hi v hv
    have htx : validateTx crypto (s.nodes v).chain.toLedger ((s.nodes v).chain.height + 1)
        ((s.nodes i).signTx crypto r) = true := by
      rw [hsame.ledger, hsame.height]
      exact htakes
    have hvalid := Node.validateMessage_addTx (h.key_ok hi) (h.key_ok hv) (hsees.now i hi)
      (Nat.le_add_left 1 (s.nodes i).chain.height) (validateTx_iff.mp htakes).1
    have hdata : ((s.nodes i).message (turn i).now (s.key v) (.addTx ((s.nodes i).chain.height + 1)
        ((s.nodes i).signTx crypto r))).data
        = .addTx ((s.nodes v).chain.height + 1) ((s.nodes i).signTx crypto r) := by
      rw [hsame.height]
      rfl
    obtain ⟨hpools, hbehind⟩ := Node.step_addTx (h.idle v hv) (hturn v hv) rfl hdata hvalid htx
    have hheard : s₁.FromOthers v (.message ((s.nodes i).message (turn i).now (s.key v)
        (.addTx ((s.nodes i).chain.height + 1) ((s.nodes i).signTx crypto r)))) :=
      ⟨i, hne.symm, hposts.posted⟩
    obtain ⟨s₂, h₂, hself₂, hrest₂⟩ := h₁.runTurn (hrest v hne) hheard
      (hpools.toAlike.adds_le (h.adds v hv))
    rw [← hself₂] at hpools hbehind
    refine ⟨s₂, h₂, hpools, ?_, ?_, fun j hj => ?_, fun j hj => ?_⟩
    · exact alike_of_self (alike_of_self hfirst hposts.toAlike hrest) hpools.toAlike hrest₂
    · rw [hrest₂ i hne.symm]
      exact hwaits
    · by_cases hjv : j = v
      · exact hjv ▸ hbehind
      · rw [hrest₂ j hjv, hrest j hj]
    · rw [hrest₂ j fun heq => hj (heq ▸ hv), hrest j fun heq => hj (heq ▸ hi)]

/-- **Everybody is ready** once it is there. -/
theorem Launched.ready [DecidableEq ι] (hlaunched : Launched crypto members v i r rest s s')
    (h : s.Level members) (hsees : s.Sees members turn) (hv : v ∈ members)
    (hturn : ∀ i ∈ members, (s.nodes i).TurnOf (turn i) (s.key v)) (hi : i ∈ members)
    (htakes : Takes crypto (s.nodes i) r)
    (hstays : ∀ j ∈ members, ((s.nodes v).chain.toLedger.applyTx
      [(s.nodes i).signTx crypto r]).hasPeer (s.key j) = true) :
    s'.Ready crypto v (members.erase v) turn := by
  have hchain : ∀ j ∈ members, (s'.nodes j).chain = (s.nodes j).chain :=
    fun j hj => congrArg Consensus.chain (hlaunched.alike j hj).core
  have hkey : ∀ j ∈ members, s'.key j = s.key j :=
    fun j hj => congrArg Blockchain.publicKey (hchain j hj)
  have hsame := h.same i hi v hv
  have hperm : (v :: members.erase v).Perm members := (List.perm_cons_erase hv).symm
  have hkeys : ((v :: members.erase v).map s'.key).Perm (members.map s.key) := by
    rw [← List.map_congr_left hkey]
    exact hperm.map s'.key
  have hmem : ∀ j ∈ v :: members.erase v, j ∈ members := fun j hj => hperm.mem_iff.mp hj
  have hlength : (members.erase v).length + 1 = members.length := hperm.length_eq
  have hsize := h.size
  have htx : validateTx crypto (s.nodes v).chain.toLedger ((s.nodes v).chain.height + 1)
      ((s.nodes i).signTx crypto r) = true := by
    rw [hsame.ledger, hsame.height]
    exact htakes
  obtain ⟨latest, hstanding⟩ := h.standing v hv
  refine
    { running := fun j hj => (hlaunched.alike j (hmem j hj)).running
      adds := fun j hj => ?_
      same := fun j hj => ?_
      turnOf := fun j hj => ?_
      now := fun j hj => hsees.now j (hmem j hj)
      key_ok := fun j hj => ?_
      keys := hkeys.nodup_iff.mpr h.keys
      standing := ⟨latest, ?_⟩
      armed := hlaunched.pools.timer
      pooled := ?_
      valid := ?_
      origins := ?_
      others := ⟨?_, ?_⟩
      quorum := ?_
      stays := fun j hj => ?_
      keeps := Or.inr fun j hj k hk => ?_ }
  · rw [(hlaunched.alike j (hmem j hj)).core]
    exact h.adds j (hmem j hj)
  · rw [(hlaunched.alike j (hmem j hj)).core, (hlaunched.alike v hv).core]
    exact h.same v hv j (hmem j hj)
  · rw [hkey v hv]
    exact (hlaunched.alike j (hmem j hj)).turnOf (hturn j (hmem j hj))
  · have hj' := List.mem_of_mem_erase hj
    rw [hkey j hj']
    exact h.key_ok hj'
  · rw [(hlaunched.alike v hv).core]
    exact hstanding
  · rw [hlaunched.pools.pool]
    exact ⟨List.cons_ne_nil _ [], Nat.le_add_left 1 15⟩
  · intro t ht
    rw [hlaunched.pools.pool] at ht
    rw [List.mem_singleton.mp ht, hchain v hv]
    exact htx
  · rw [hlaunched.pools.pool]
    exact List.nodup_singleton _
  · exact List.ne_nil_of_length_pos (by omega)
  · unfold MAX_NETWORK_SIZE at hsize
    omega
  · rw [hchain v hv]
    exact (h.accounted v hv).hasQuorumWeighted_of_perm (hkeys.trans (h.perm_keys hv))
      (h.staked v hv)
  · rw [hlaunched.pools.pool, hchain v hv, hkey j (hmem j hj)]
    exact hstays j (hmem j hj)
  · rw [(hlaunched.alike j (hmem j hj)).arrayNetwork] at hk
    obtain ⟨l, hl, rfl⟩ := List.mem_map.mp ((h.peers j (hmem j hj) k).mp (h.hasPeer (hmem j hj) hk))
    rw [hlaunched.pools.pool, hchain v hv]
    exact hstays l hl

/-! ## §5. A round, and what comes after it. -/

theorem Reaches.trans [DecidableEq ι] {ok : Node → Turn → Node.Event → Prop} {s₀ : System ι}
    (h : Reaches crypto ok s₀ s) (h' : Reaches crypto ok s s') : Reaches crypto ok s₀ s' := by
  induction h' with
  | refl => exact h
  | turn _ i turn e hnet hok ih => exact ih.turn i turn e hnet hok
  | serve _ i ih => exact ih.serve i

/-- **The round leaves the nodes as they were**, one block higher. -/
theorem Aligned.rested {b : BlockStruct} (h : s.Aligned members)
    (hcommits : ∀ j ∈ members, Commits crypto b (s.nodes j) (s'.nodes j))
    (hhash : isKeyText b.hash = true)
    (hpeers : ∀ j ∈ members, ∀ k, ((s.nodes j).chain.toLedger.applyTx b.tx).hasPeer k
      = (s.nodes j).chain.hasPeer k)
    (hstaked : ∀ j ∈ members, (s.nodes j).chain.quorumWeighted
      ≤ ((s.nodes j).chain.toLedger.applyTx b.tx).quorumWeighted) : s'.Rested members := by
  have hkey : ∀ j ∈ members, s'.key j = s.key j := fun j hj => (hcommits j hj).publicKey
  have hkeys : members.map s'.key = members.map s.key := List.map_congr_left hkey
  refine
    { same := fun j hj k hk => ⟨?_, ?_, ?_⟩
      standing := fun j hj => ?_
      arrayNetwork := fun j hj => ?_
      accounted := fun j hj => ?_
      peers := fun j hj k => ?_
      staked := fun j hj => ?_
      keys := hkeys ▸ h.keys
      size := h.size
      idle := fun j hj => (hcommits j hj).toIdle
      adds := fun j hj => (hcommits j hj).adds
      ownTx := fun j hj => (hcommits j hj).ownTx
      timeoutAddTx := fun j hj => (hcommits j hj).timeoutAddTx }
  · rw [(hcommits k hk).ledger, (hcommits j hj).ledger, (h.same j hj k hk).ledger]
  · rw [(hcommits k hk).height, (hcommits j hj).height]
  · rw [(hcommits k hk).latest, (hcommits j hj).latest]
  · obtain ⟨latest, hlatest, heq⟩ := Option.map_eq_some_iff.mp (hcommits j hj).latest
    have htop := (hcommits j hj).top
    rw [hlatest] at htop
    refine ⟨latest, hlatest, ?_, heq ▸ hhash, ?_⟩
    · rw [(hcommits j hj).height]
      exact Option.some.inj htop
    · rw [(hcommits j hj).publicKey]
      exact h.key_ok hj
  · rw [(hcommits j hj).arrayNetwork, h.arrayNetwork j hj, hkeys]
  · rw [(hcommits j hj).ledger]
    exact (h.accounted j hj).applyTx b.tx
  · rw [(hcommits j hj).ledger, hpeers j hj, hkeys]
    exact h.peers j hj k
  · rw [(hcommits j hj).ledger]
    exact lt_of_lt_of_le (h.staked j hj) (hstaked j hj)

/-- **A round**: what goes off at one of the nodes is in the next block of all of
them, and what waits stays where it was. -/
theorem Level.round [DecidableEq ι] (hformat : crypto.Formatted) (hcorrect : crypto.SignCorrect)
    (hapart : s.Apart crypto members) (h : s.Level members) (hsees : s.Sees members turn)
    (hi : i ∈ members) {e : Node.Event} (hown : s.FromOthers i e)
    (hlaunch : Launches crypto (s.nodes i) (turn i) e r rest)
    (htakes : Takes crypto (s.nodes i) r) (hharmless : ∀ c ∈ r.commands, c.Harmless) :
    ∃ s' b, Reaches crypto (Node.Sequential crypto) s s' ∧ s'.Rested members
      ∧ b.tx = [(s.nodes i).signTx crypto r]
      ∧ (∀ j ∈ members, s'.key j = s.key j
        ∧ (s'.nodes j).committed = (s.nodes j).committed ++ [b]
        ∧ (s'.nodes j).chain.toLedger = (s.nodes j).chain.toLedger.applyTx b.tx)
      ∧ (∃ rs, (s'.nodes i).stackTransaction = rest ++ rs)
      ∧ (∀ j ∈ members, j ≠ i → ∃ rs,
        (s'.nodes j).stackTransaction = (s.nodes j).stackTransaction ++ rs)
      ∧ ∀ j ∉ members, s'.nodes j = s.nodes j := by
  obtain ⟨v, hv, hturn⟩ := h.exists_validator hsees
  obtain ⟨s₁, h₁, hlaunched⟩ := h.exists_launched hsees hv hturn hi hown hlaunch htakes
  have hready := hlaunched.ready h hsees hv hturn hi htakes fun j hj =>
    ((applyTx_harmless hharmless).1 _).trans ((h.peers v hv _).mpr (List.mem_map_of_mem hj))
  obtain ⟨s₂, b, h₂, htx, -, hhash, -, hcommits, houtside⟩ := hready.commits hformat hcorrect
  rw [hlaunched.pools.pool] at htx
  have hmem : ∀ j, j ∈ v :: members.erase v ↔ j ∈ members :=
    fun j => (List.perm_cons_erase hv).symm.mem_iff
  have hchain : ∀ j ∈ members, (s₁.nodes j).chain = (s.nodes j).chain :=
    fun j hj => congrArg Consensus.chain (hlaunched.alike j hj).core
  have hkey : ∀ j ∈ members, s₁.key j = s.key j :=
    fun j hj => congrArg Blockchain.publicKey (hchain j hj)
  have hback : ∀ j ∈ members, Commits crypto b (s₁.nodes j) (s₂.nodes j) :=
    fun j hj => hcommits j ((hmem j).mpr hj)
  -- Each node takes the round for what it is to it.
  have hclears : Node.Clears crypto (s₁.nodes i) b := by
    unfold Node.Clears
    rw [show (s₁.nodes i).ownTx = _ from congrArg Prod.fst hlaunched.waits, htx]
    exact ⟨_, List.mem_singleton_self _, rfl⟩
  have hkeeps : ∀ j ∈ members, j ≠ i → Node.Clears crypto (s₁.nodes j) b := by
    intro j hj hji
    unfold Node.Clears
    rw [show (s₁.nodes j).ownTx = (s.nodes j).ownTx from
      congrArg Prod.fst (hlaunched.others j hji), h.ownTx j hj, htx, hchain j hj]
    intro t ht d
    rw [List.mem_singleton.mp ht]
    exact hapart i hi j hj hji _ d
  have htx' : ∀ j ∈ members, (s₁.nodes j).chain.toLedger.applyTx b.tx
      = (s.nodes j).chain.toLedger.applyTx [(s.nodes i).signTx crypto r] := by
    intro j hj
    rw [htx, hchain j hj]
  have hrested : s₂.Rested members := by
    refine (h.toAligned.congr hlaunched.alike).rested hback hhash (fun j hj k => ?_) fun j hj => ?_
    · rw [htx' j hj, hchain j hj]
      exact (applyTx_harmless hharmless).1 k
    · rw [htx' j hj, hchain j hj]
      exact (applyTx_harmless hharmless).2
  refine ⟨s₂, b, h₁.trans h₂, hrested, htx, fun j hj => ⟨?_, ?_, ?_⟩, ?_, fun j hj hji => ?_,
    fun j hj => ?_⟩
  · exact (hback j hj).publicKey.trans (hkey j hj)
  · rw [(hback j hj).committed, (hlaunched.alike j hj).core]
  · rw [(hback j hj).ledger, hchain j hj]
  · obtain ⟨rs, hrs⟩ := (hback i hi).stack hclears
    exact ⟨rs, hrs.trans (congrArg (· ++ rs) (congrArg Prod.snd hlaunched.waits))⟩
  · obtain ⟨rs, hrs⟩ := (hback j hj).stack (hkeeps j hj hji)
    exact ⟨rs, hrs.trans (congrArg (· ++ rs) (congrArg Prod.snd (hlaunched.others j hji)))⟩
  · rw [houtside j fun hmem' => hj ((hmem j).mp hmem'), hlaunched.outside j hj]

/-- What a block with one transaction has of a peer. -/
theorem ownRecords_single {b : BlockStruct} {tx : TransactionStruct} (hb : b.tx = [tx])
    (publicKey : Text) :
    ownRecords publicKey b = if tx.origin = publicKey then [tx.record] else [] := by
  unfold ownRecords
  rw [hb, List.filter_singleton]
  by_cases h : tx.origin = publicKey
  · rw [decide_eq_true h, if_pos h]
    rfl
  · rw [decide_eq_false h, if_neg h]
    rfl

/-- **The blocks have the first `c j` records** that wait at node `j`, in that
order, and the others still wait. -/
structure Drained (members : List ι) (c : ι → Nat) (bs : List BlockStruct) (s s' : System ι) :
    Prop where
  key : ∀ j ∈ members, s'.key j = s.key j
  committed : ∀ j ∈ members, (s'.nodes j).committed = (s.nodes j).committed ++ bs
  records : ∀ j ∈ members,
    bs.flatMap (ownRecords (s.key j)) = (s.nodes j).stackTransaction.take (c j)
  waits : ∀ j ∈ members, ∃ rs,
    (s'.nodes j).stackTransaction = (s.nodes j).stackTransaction.drop (c j) ++ rs
  outside : ∀ j ∉ members, s'.nodes j = s.nodes j

theorem Drained.refl (members : List ι) (s : System ι) : Drained members (fun _ => 0) [] s s :=
  ⟨fun _ _ => rfl, fun _ _ => (List.append_nil _).symm, fun _ _ => rfl,
    fun _ _ => ⟨[], (List.append_nil _).symm⟩, fun _ _ => rfl⟩

section

variable {c c' : ι → Nat} {bs bs' : List BlockStruct} {s₁ : System ι} {j : ι}

/-- What is to follow was there before. -/
theorem Drained.take_eq (h : Drained members c bs s s₁) (hj : j ∈ members) {k : Nat}
    (hle : c j + k ≤ (s.nodes j).stackTransaction.length) :
    (s₁.nodes j).stackTransaction.take k = ((s.nodes j).stackTransaction.drop (c j)).take k := by
  obtain ⟨rs, hrs⟩ := h.waits j hj
  have hlength : k ≤ ((s.nodes j).stackTransaction.drop (c j)).length := by
    rw [List.length_drop]
    omega
  rw [hrs, List.take_append_of_le_length hlength]

theorem Drained.length_le (h : Drained members c bs s s₁) (hj : j ∈ members) {k : Nat}
    (hle : c j + k ≤ (s.nodes j).stackTransaction.length) :
    k ≤ (s₁.nodes j).stackTransaction.length := by
  obtain ⟨rs, hrs⟩ := h.waits j hj
  rw [hrs, List.length_append, List.length_drop]
  omega

/-- **One after the other.** -/
theorem Drained.trans (h : Drained members c bs s s₁) (h' : Drained members c' bs' s₁ s')
    (hle : ∀ j ∈ members, c j + c' j ≤ (s.nodes j).stackTransaction.length) :
    Drained members (fun j => c j + c' j) (bs ++ bs') s s' := by
  refine ⟨fun j hj => (h'.key j hj).trans (h.key j hj), fun j hj => ?_, fun j hj => ?_,
    fun j hj => ?_, fun j hj => (h'.outside j hj).trans (h.outside j hj)⟩
  · rw [h'.committed j hj, h.committed j hj, List.append_assoc]
  · have hlater := h'.records j hj
    rw [h.key j hj, h.take_eq hj (hle j hj)] at hlater
    rw [List.flatMap_append, h.records j hj, hlater, List.take_add]
  · obtain ⟨rs, hrs⟩ := h.waits j hj
    obtain ⟨rs', hrs'⟩ := h'.waits j hj
    have hlength : c' j ≤ ((s.nodes j).stackTransaction.drop (c j)).length := by
      have := hle j hj
      rw [List.length_drop]
      omega
    refine ⟨rs ++ rs', ?_⟩
    rw [hrs', hrs, List.drop_append_of_le_length hlength, List.drop_drop, List.append_assoc]

end

/-- **The first record of a node goes off** when its timer fires. -/
theorem Rested.round [DecidableEq ι] (hformat : crypto.Formatted) (hcorrect : crypto.SignCorrect)
    (hapart : s.Apart crypto members) (h : s.Rested members) (hsees : s.Sees members turn)
    (hi : i ∈ members) (hstack : (s.nodes i).stackTransaction = r :: rest)
    (htakes : Takes crypto (s.nodes i) r) (hharmless : ∀ c ∈ r.commands, c.Harmless) :
    ∃ s' b, Reaches crypto (Node.Sequential crypto) s s' ∧ s'.Rested members
      ∧ b.tx.map TransactionStruct.origin = [s.key i]
      ∧ Drained members (fun j => [i].count j) [b] s s' := by
  have hwaits : (s.nodes i).waiting = (none, r :: rest) := Prod.ext (h.ownTx i hi) hstack
  have hown : s.FromOthers i .timeoutAddTx := trivial
  obtain ⟨s', b, h', hrested, htx, hsame, hself, hothers, houtside⟩ :=
    h.toLevel.round hformat hcorrect hapart hsees hi hown
      (Node.launches_timeoutAddTx crypto (turn i) (h.idle i hi) (h.timeoutAddTx i hi) hwaits)
      htakes hharmless
  have hcount : ∀ {j}, j ≠ i → [i].count j = 0 :=
    fun hj => List.count_eq_zero.mpr fun hmem => hj (List.mem_singleton.mp hmem)
  refine ⟨s', b, h', hrested, congrArg (List.map TransactionStruct.origin) htx,
    fun j hj => (hsame j hj).1, fun j hj => (hsame j hj).2.1, fun j hj => ?_, fun j hj => ?_,
    houtside⟩
  · rw [List.flatMap_singleton, ownRecords_single htx]
    by_cases hji : j = i
    · rw [if_pos (hji ▸ rfl), hji, List.count_singleton_self, hstack]
      rfl
    · rw [if_neg fun heq => hji (List.inj_on_of_nodup_map h.keys hj hi heq.symm), hcount hji]
      rfl
  · by_cases hji : j = i
    · rw [hji, List.count_singleton_self, hstack]
      exact hself
    · rw [hcount hji]
      exact hothers j hj hji

/-- **What waits is committed.**  From a network at rest there is a run for every
order in which the timers of the nodes fire: each block has one record, of the node
whose timer has fired, and those of a node come in the order in which they wait. -/
theorem drains [DecidableEq ι] (hformat : crypto.Formatted) (hcorrect : crypto.SignCorrect)
    (hapart : s.Apart crypto members) (h : s.Rested members) {schedule : List (ι × (ι → Turn))}
    (hsees : ∀ x ∈ schedule, x.1 ∈ members ∧ s.Sees members x.2)
    (hcount : ∀ j ∈ members,
      (schedule.map Prod.fst).count j ≤ (s.nodes j).stackTransaction.length)
    (htakes : ∀ j ∈ members,
      ∀ r ∈ (s.nodes j).stackTransaction.take ((schedule.map Prod.fst).count j),
        Takes crypto (s.nodes j) r ∧ ∀ c ∈ r.commands, c.Harmless) :
    ∃ s' bs, Reaches crypto (Node.Sequential crypto) s s' ∧ s'.Rested members
      ∧ bs.map (fun b => b.tx.map TransactionStruct.origin)
        = schedule.map (fun x => [s.key x.1])
      ∧ Drained members (fun j => (schedule.map Prod.fst).count j) bs s s' := by
  induction schedule generalizing s with
  | nil => exact ⟨s, [], .refl, h, rfl, Drained.refl members s⟩
  | cons x schedule ih =>
      obtain ⟨i, turn⟩ := x
      obtain ⟨hi, hturn⟩ := hsees (i, turn) List.mem_cons_self
      set later := schedule.map Prod.fst with hlater
      have hcons : ∀ j, (((i, turn) :: schedule).map Prod.fst).count j
          = [i].count j + later.count j := by
        intro j
        rw [List.map_cons, ← List.singleton_append, List.count_append]
      simp only [hcons] at hcount htakes ⊢
      have hfirst := hcount i hi
      have hrecords := htakes i hi
      rw [List.count_singleton_self] at hfirst hrecords
      obtain ⟨r, rest, hstack⟩ :=
        List.exists_cons_of_length_pos (Nat.lt_of_lt_of_le (by omega) hfirst)
      obtain ⟨htake, hharmless⟩ := hrecords r (by
        rw [hstack, Nat.add_comm, List.take_succ_cons]
        exact List.mem_cons_self)
      obtain ⟨s₁, b, h₁, hrested, horigin, hdrained⟩ :=
        h.round hformat hcorrect hapart hturn hi hstack htake hharmless
      -- The rest of the schedule asks for what has been there from the first.
      obtain ⟨s₂, bs, h₂, hrested₂, horigins, hdrained₂⟩ :=
        ih (hapart.congr hdrained.key) hrested
        (fun x hx => by
          obtain ⟨hmember, hsee⟩ := hsees x (List.mem_cons_of_mem _ hx)
          exact ⟨hmember, hsee.congr hdrained.key⟩)
        (fun j hj => hdrained.length_le hj (hcount j hj))
        (fun j hj r' hr' => by
          rw [hdrained.take_eq hj (hcount j hj)] at hr'
          obtain ⟨htake', hharmless'⟩ := htakes j hj r' (by
            rw [List.take_add]
            exact List.mem_append_right _ hr')
          exact ⟨Node.takes_of_harmless hformat hcorrect htake' hharmless' (hdrained.key j hj),
            hharmless'⟩)
      refine ⟨s₂, b :: bs, h₁.trans h₂, hrested₂, ?_, hdrained.trans hdrained₂ hcount⟩
      rw [List.map_cons, List.map_cons, horigin, horigins]
      refine congrArg₂ List.cons rfl (List.map_congr_left fun x hx => ?_)
      rw [hdrained.key x.1 (hsees x (List.mem_cons_of_mem _ hx)).1]

open Blockchain (sampleStart)
open Node (allOnline stackRecord)

theorem aligned_readyStart : readyStart.Aligned [1, 2, 0] where
  same := fun i hi j hj => by
    have hi' := ready_readyStart.same i hi
    have hj' := ready_readyStart.same j hj
    exact ⟨hj'.ledger.trans hi'.ledger.symm, hj'.height.trans hi'.height.symm,
      hj'.latest.trans hi'.latest.symm⟩
  standing := fun i hi => by
    have hstanding : ∀ i ∈ [1, 2, 0],
        (readyStart.nodes i).chain.latestBlock
            = some ((readyStart.nodes i).chain.latestBlock.getD default)
          ∧ ((readyStart.nodes i).chain.latestBlock.getD default).height
            = (readyStart.nodes i).chain.height
          ∧ isKeyText ((readyStart.nodes i).chain.latestBlock.getD default).hash = true
          ∧ isKeyText (readyStart.nodes i).chain.publicKey = true := by decide +kernel
    obtain ⟨hlatest, hheight, hhash, hkey⟩ := hstanding i hi
    exact ⟨_, hlatest, hheight, hhash, hkey⟩
  arrayNetwork := by decide +kernel
  accounted := fun i hi => by
    have htotal : ∀ i ∈ [1, 2, 0], (readyStart.nodes i).chain.quorumWeighted
        = DataKit.OrdMap.total Peer.stake (readyStart.nodes i).chain.mapPeer := by decide +kernel
    have hstakes : ∀ i ∈ [1, 2, 0], ∀ peer ∈ (readyStart.nodes i).chain.mapPeer.values,
        0 ≤ peer.stake := by decide +kernel
    exact ⟨htotal i hi, hstakes i hi⟩
  peers := fun i hi k => by
    have hperm : ∀ i ∈ [1, 2, 0], (readyStart.nodes i).chain.mapPeer.keys.Perm
        ([1, 2, 0].map readyStart.key) := by decide +kernel
    exact (OrdMap.has_iff _ _).trans (hperm i hi).mem_iff
  staked := by decide +kernel
  keys := by decide +kernel
  size := by decide

/-- Their signatures have the number of the key behind the length of the text. -/
theorem apart_readyStart : readyStart.Apart keyedCrypto [1, 2, 0] := by
  intro i hi j hj hji d d' hsig
  have hindex : ∀ i : Fin 3, [keyOf 0, keyOf 1, keyOf 2].idxOf (readyStart.key i) = i := by
    decide +kernel
  have hlabel : 4 * (d.length % 16) + [keyOf 0, keyOf 1, keyOf 2].idxOf (readyStart.key i)
      = 4 * (d'.length % 16) + [keyOf 0, keyOf 1, keyOf 2].idxOf (readyStart.key j) :=
    label_injective 86 hsig
  rw [hindex, hindex] at hlabel
  exact hji (Fin.ext (by omega))

def secondNote : RecordStack := stackRecord allOnline [forkNote 2] ['u']

/-- Once the first note of node 1 is in a block, the second one can go off. -/
theorem exists_rested :
    ∃ s b, Reaches keyedCrypto (Node.Sequential keyedCrypto) readyStart s ∧ s.Rested [1, 2, 0]
      ∧ b.tx.map TransactionStruct.commands = [[forkNote 1]]
      ∧ (∃ rs, (s.nodes 1).stackTransaction = secondNote :: rs)
      ∧ ∀ i ∈ [1, 2, 0], s.key i = readyStart.key i ∧ (s.nodes i).committed = [b] := by
  obtain ⟨s, b, h, htx, -, hhash, -, hcommits, -⟩ :=
    ready_readyStart.commits keyedCrypto_formatted keyedCrypto_signCorrect
  set first := (readyStart.nodes 1).signTx keyedCrypto (stackRecord allOnline [forkNote 1] ['t'])
    with hfirst
  have hpool : (readyStart.nodes 1).arrayPoolTx = [first] := by decide +kernel
  have hharmless : ∀ c ∈ first.commands, c.Harmless := by decide +kernel
  rw [hpool] at htx
  have hclears : Node.Clears keyedCrypto (readyStart.nodes 1) b := by
    have hown : (readyStart.nodes 1).ownTx = some { height := 2, tx := first } := by decide +kernel
    unfold Node.Clears
    rw [hown, htx]
    exact ⟨first, List.mem_singleton_self _, rfl⟩
  have hstack : (readyStart.nodes 1).stackTransaction = [secondNote] := by decide +kernel
  have hnone : ∀ i : Fin 3, (readyStart.nodes i).committed = [] := by decide +kernel
  refine ⟨s, b, h, ?_, ?_, ?_, fun i hi => ⟨(hcommits i hi).publicKey, ?_⟩⟩
  · refine aligned_readyStart.rested hcommits hhash (fun j _ k => ?_) fun j _ => ?_
    · rw [htx]
      exact (applyTx_harmless hharmless).1 k
    · rw [htx]
      exact (applyTx_harmless hharmless).2
  · rw [htx]
    decide +kernel
  · obtain ⟨rs, hrs⟩ := (hcommits 1 (by decide)).stack hclears
    rw [hstack] at hrs
    exact ⟨rs, hrs⟩
  · rw [(hcommits i hi).committed, hnone i]
    rfl

/-- It comes into the next block. -/
theorem drains_of_sample :
    ∃ s b bs, Reaches keyedCrypto (Node.Sequential keyedCrypto) readyStart s
      ∧ b.tx.map TransactionStruct.commands = [[forkNote 1]]
      ∧ bs.flatMap (ownRecords (keyOf 1)) = [secondNote]
      ∧ ∀ i, (s.nodes i).committed = b :: bs := by
  have hall : ∀ i : Fin 3, i ∈ [1, 2, 0] := by decide
  obtain ⟨s₁, b, h₁, hrested, hb, ⟨rs, hrs⟩, hnodes⟩ := exists_rested
  have hkey : ∀ i ∈ [1, 2, 0], s₁.key i = readyStart.key i := fun i hi => (hnodes i hi).1
  have htakes : Takes keyedCrypto (readyStart.nodes 1) secondNote := by decide +kernel
  have hharmless : ∀ c ∈ secondNote.commands, c.Harmless := by decide +kernel
  have hsees : ∀ x ∈ [((1 : Fin 3), fun _ : Fin 3 => allOnline)],
      x.1 ∈ [1, 2, 0] ∧ s₁.Sees [1, 2, 0] x.2 := by
    intro x hx
    rw [List.mem_singleton.mp hx]
    exact ⟨hall 1, fun _ _ _ _ => rfl, fun _ _ => Nat.le_refl 1⟩
  obtain ⟨s₂, bs, h₂, -, -, hdrained⟩ := drains keyedCrypto_formatted keyedCrypto_signCorrect
    (apart_readyStart.congr hkey) hrested hsees
    (fun j _ => by
      rw [List.map_singleton]
      by_cases hj : j = 1
      · rw [hj, hrs]
        exact Nat.le_add_left 1 rs.length
      · rw [List.count_eq_zero.mpr fun hmem => hj (List.mem_singleton.mp hmem)]
        exact Nat.zero_le _)
    (fun j _ r hr => by
      rw [List.map_singleton] at hr
      by_cases hj : j = 1
      · subst hj
        rw [hrs] at hr
        obtain rfl : r = secondNote := List.mem_singleton.mp hr
        exact ⟨Node.takes_of_harmless keyedCrypto_formatted keyedCrypto_signCorrect htakes hharmless
          (hkey 1 (hall 1)), hharmless⟩
      · rw [List.count_eq_zero.mpr fun hmem => hj (List.mem_singleton.mp hmem)] at hr
        cases hr)
  refine ⟨s₂, b, bs, h₁.trans h₂, hb, ?_, fun i => ?_⟩
  · have hrecords := hdrained.records 1 (hall 1)
    rw [hrs, hkey 1 (hall 1), show readyStart.key 1 = keyOf 1 by decide +kernel] at hrecords
    exact hrecords
  · rw [hdrained.committed i (hall i), (hnodes i (hall i)).2]
    rfl

end System

end Divachain
