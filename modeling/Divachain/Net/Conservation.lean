/-
  Divachain.Net.Conservation — no transaction of the node is lost or repeated.

  What `stack` has accepted is, in this order, what the committed blocks have
  of it and the line of what is still to come.  A block is matched with the
  transaction in flight only.  So a commit must not bring a transaction of the
  node while none is in flight: the one way to get there is a stake proposal
  that `updateCache` sends off and `clear` then takes back.

  `Conserved` is the invariant; `Conserved.booked` covers every turn but a
  commit and `Conserved.commit` the commit.
-/
import Divachain.Net.Carried
import Divachain.Net.VoteOnce
import Divachain.Chain.Agreement

namespace Divachain

open DataKit
open Consensus (Settled Carried VoteBlind Brings)

/-- The records of a peer's transactions in a block. -/
def ownRecords (publicKey : Text) (b : BlockStruct) : List RecordStack :=
  (b.tx.filter fun t => decide (t.origin = publicKey)).map TransactionStruct.record

namespace Node

/-! ## §1. The invariant. -/

/-- The transactions of this node in the block are ones it has sent for its height. -/
def Known (n : Node) (b : BlockStruct) : Prop :=
  ∀ t ∈ b.tx, t.origin = n.chain.publicKey → n.Sent b.height t

instance (n : Node) (b : BlockStruct) : Decidable (n.Known b) :=
  inferInstanceAs (Decidable (∀ t ∈ b.tx, t.origin = n.chain.publicKey → n.Sent b.height t))

/-- **What has been accepted is committed or still in the line**, and all that
is around of the node's transactions for the next height is its head. -/
structure Conserved (crypto : Crypto) (n : Node) : Prop where
  accounted : n.accepted = n.committed.flatMap (ownRecords n.chain.publicKey) ++ n.line
  top : n.chain.latestBlock.map BlockStruct.height = some n.chain.height
  ownTx : ∀ own, n.ownTx = some own → Signed crypto n own
  sent_le : ∀ height t, n.Sent height t → height ≤ n.chain.height + 1
  sent_next : ∀ t, t.origin = n.chain.publicKey → n.Sent (n.chain.height + 1) t → Next crypto n t
  current : ∀ t ∈ n.current.values, t.origin = n.chain.publicKey → Next crypto n t
  arrayPoolTx : ∀ t ∈ n.arrayPoolTx, t.origin = n.chain.publicKey → Next crypto n t
  carried : Carried n.Known n.toConsensus

variable {crypto : Crypto} {genesis : BlockStruct} {base : List BlockStruct} {n : Node}

theorem not_sent_start (chain : Blockchain) (height : Nat) (t : TransactionStruct) :
    ¬ (start chain).Sent height t := by
  intro h
  obtain ⟨m, hm, -⟩ := h
  exact nomatch hm

theorem conserved_start {chain : Blockchain}
    (htop : chain.latestBlock.map BlockStruct.height = some chain.height) :
    Conserved crypto (start chain) :=
  ⟨rfl, htop, fun _ h => (nomatch h), fun _ _ h => absurd h (not_sent_start _ _ _),
    fun _ _ h => absurd h (not_sent_start _ _ _), fun _ h => (nomatch h), fun _ h => (nomatch h),
    Consensus.carried_start chain⟩

theorem voteBlind_known (n : Node) : VoteBlind n.Known := fun _ _ h => h

/-! ## §2. Turns without a commit. -/

/-- The proposal of a node is a block for the next height. -/
theorem height_proposal {c : Consensus}
    (htop : c.chain.latestBlock.map BlockStruct.height = some c.chain.height)
    (pool : List TransactionStruct) :
    (c.proposal crypto pool).height = c.chain.height + 1 := by
  obtain ⟨latest, hlatest, hheight⟩ := Option.map_eq_some_iff.mp htop
  rw [Consensus.proposal, hlatest, ← hheight]
  rfl

/-- What has been sent after a turn was sent before or is made of the line. -/
theorem sent_cases (h : Conserved crypto n) {m : Node} (hbooked : Booked crypto n m) {kind : Kind}
    (hmove : Move crypto n.toConsensus kind m.toConsensus)
    (hpool : ∀ pool, kind = .propose pool → pool = n.arrayPoolTx) {height : Nat}
    {t : TransactionStruct} (ht : m.Sent height t) :
    n.Sent height t
      ∨ (height = n.chain.height + 1 ∧ (t.origin = n.chain.publicKey → Next crypto m t)) := by
  obtain ⟨msg, hmsg, hcarries⟩ := ht
  rcases List.mem_append.mp hmsg with hmsg | hmsg
  -- Posted by the node itself: sent before, or the next own transaction.
  · rcases hbooked.posted msg hmsg height t hcarries with hold | ⟨hheight, hnext⟩
    · exact Or.inl ⟨msg, List.mem_append_left _ hold, hcarries⟩
    · exact Or.inr ⟨hheight, fun _ => hnext⟩
  -- Sent by the consensus: only a proposal is new, and it carries the pool.
  · obtain ⟨l, hsent, hnew⟩ := Consensus.sent_of_move hmove
    rw [hsent] at hmsg
    rcases List.mem_append.mp hmsg with hold | hmsg
    · exact Or.inl ⟨msg, List.mem_append_right _ hold, hcarries⟩
    · obtain ⟨pool, hkind, hdata⟩ := hnew msg hmsg height t hcarries
      obtain rfl := hpool pool hkind
      rw [hdata] at hcarries
      simp only [MessageData.carries, Bool.and_eq_true, decide_eq_true_eq] at hcarries
      obtain ⟨hheight, hmem⟩ := hcarries
      rw [height_proposal h.top] at hheight
      exact Or.inr ⟨hheight.symm, fun hown => hbooked.next (h.arrayPoolTx t hmem hown)⟩

/-- What has been sent stays sent. -/
theorem sent_mono {m : Node} (hbooked : Booked crypto n m) {kind : Kind}
    (hmove : Move crypto n.toConsensus kind m.toConsensus) {height : Nat} {t : TransactionStruct}
    (ht : n.Sent height t) : m.Sent height t := by
  obtain ⟨msg, hmsg, hcarries⟩ := ht
  refine ⟨msg, ?_, hcarries⟩
  rcases List.mem_append.mp hmsg with hmsg | hmsg
  · exact List.mem_append_left _ (hbooked.kept msg hmsg)
  · obtain ⟨l, hsent, -⟩ := Consensus.sent_of_move hmove
    refine List.mem_append_right _ ?_
    rw [hsent]
    exact List.mem_append_left _ hmsg

/-- **A turn without a commit.** -/
theorem Conserved.booked (hs : Settled crypto genesis base n.toConsensus)
    (h : Conserved crypto n) {m : Node} (hbooked : Booked crypto n m) {kind : Kind}
    (hmove : Move crypto n.toConsensus kind m.toConsensus) (hkind : ∀ t, kind ≠ .commit t)
    (hpool : ∀ pool, kind = .propose pool → pool = n.arrayPoolTx)
    (hbrings : Brings crypto m.Known n.toConsensus kind) (hone : m.adds.length ≤ 1) :
    Conserved crypto m := by
  have hcases : ∀ {height : Nat} {t : TransactionStruct}, m.Sent height t →
      n.Sent height t
        ∨ (height = n.chain.height + 1 ∧ (t.origin = n.chain.publicKey → Next crypto m t)) :=
    fun ht => sent_cases h hbooked hmove hpool ht
  refine ⟨?_, Consensus.top_of_move hmove h.top, ?_, ?_, ?_, ?_, ?_, ?_⟩
  -- Nothing is committed, so what was accepted meanwhile has joined the end of the line.
  · obtain ⟨rs, haccepted, hline⟩ := hbooked.line
    rw [Consensus.committed_of_move hmove hkind, hbooked.publicKey, haccepted, hline,
      h.accounted, List.append_assoc]
  · intro own hown
    rcases hbooked.ownTx own hown with hold | hsigned
    · exact hbooked.signed (h.ownTx own hold)
    · exact hsigned
  · intro height t ht
    rw [hbooked.height]
    rcases hcases ht with hold | ⟨rfl, -⟩
    · exact h.sent_le height t hold
    · exact Nat.le_refl _
  · intro t hown ht
    rw [hbooked.publicKey] at hown
    rw [hbooked.height] at ht
    rcases hcases ht with hold | ⟨-, hnext⟩
    · exact hbooked.next (h.sent_next t hown hold)
    · exact hnext hown
  · intro t ht hown
    rw [hbooked.publicKey] at hown
    rcases hbooked.current t ht hown with hold | hnext
    · exact hbooked.next (h.current t hold hown)
    · exact hnext
  · intro t ht hown
    rw [hbooked.publicKey] at hown
    rcases hbooked.arrayPoolTx t ht hown with hold | hold | hnext
    · exact hbooked.next (h.arrayPoolTx t hold hown)
    · exact hbooked.next (h.current t hold hown)
    · exact hnext
  -- What has been sent stays sent, so known blocks stay known.
  · have hmono : ∀ b, n.Known b → m.Known b := by
      intro b hb t ht hown
      rw [hbooked.publicKey] at hown
      exact sent_mono hbooked hmove (hb t ht hown)
    exact (h.carried.mono hmono).move hs m.voteBlind_known hmove hone hbrings

/-! ## §3. A commit. -/

/-- With one transaction for each origin, a peer has one at most. -/
theorem filter_origin_of_mem {publicKey : Text} {t : TransactionStruct}
    (hown : t.origin = publicKey) :
    ∀ {tx : List TransactionStruct}, (tx.map TransactionStruct.origin).Nodup → t ∈ tx →
      tx.filter (fun t => decide (t.origin = publicKey)) = [t]
  | [], _, ht => nomatch ht
  | u :: tx, horigins, ht => by
      rw [List.map_cons, List.nodup_cons] at horigins
      rcases List.mem_cons.mp ht with rfl | ht
      · -- nothing behind it has the same origin
        have hrest : tx.filter (fun t => decide (t.origin = publicKey)) = [] := by
          rw [List.filter_eq_nil_iff]
          intro v hv heq
          have horigin : v.origin = t.origin := (of_decide_eq_true heq).trans hown.symm
          exact horigins.1 (horigin ▸ List.mem_map_of_mem hv)
        rw [List.filter_cons, if_pos (decide_eq_true hown), hrest]
      · have hne : ¬ decide (u.origin = publicKey) = true := by
          intro heq
          have horigin : t.origin = u.origin := hown.trans (of_decide_eq_true heq).symm
          exact horigins.1 (horigin ▸ List.mem_map_of_mem ht)
        rw [List.filter_cons, if_neg hne]
        exact filter_origin_of_mem hown horigins.2 ht

theorem ownRecords_of_mem {publicKey : Text} {b : BlockStruct}
    (horigins : (b.tx.map TransactionStruct.origin).Nodup) {t : TransactionStruct} (ht : t ∈ b.tx)
    (hown : t.origin = publicKey) : ownRecords publicKey b = [t.record] := by
  rw [ownRecords, filter_origin_of_mem hown horigins ht]
  rfl

theorem ownRecords_of_none {publicKey : Text} {b : BlockStruct}
    (hnone : ∀ t ∈ b.tx, t.origin ≠ publicKey) : ownRecords publicKey b = [] := by
  unfold ownRecords
  rw [List.filter_eq_nil_iff.mpr fun t ht heq => hnone t ht (of_decide_eq_true heq)]
  rfl

/-- The block that is being added has passed validation. -/
theorem wellFormed_stored {c : Consensus} (hs : Settled crypto genesis base c) {i : Nat}
    {t : AddTask} (ht : c.adds[i]? = some t) :
    ∃ l, WellFormedBlock crypto l t.stored := by
  obtain ⟨-, -, -, hvalid⟩ := hs.task ht
  obtain ⟨last, -, -, -, hblock⟩ := hvalid.of_concat hs.validated.ne_nil
  exact ⟨_, (validateBlock_true_iff.mp hblock).1⟩

/-- What is in flight when a call of `add` returns: the line and what has been
sent, after `updateCache` has stacked a stake proposal or has not. -/
theorem booked_settleVote (n : Node) (turn : Turn) (v : Blockchain.StakeVote) :
    Booked crypto n (n.settleVote crypto turn v) := by
  cases v with
  | skip => exact .refl n
  | throws => exact .of_same rfl rfl rfl rfl rfl rfl rfl rfl
  | propose publicKey =>
      refine (booked_proposeModifyStake n turn publicKey _ _).andThen ?_
      split
      · exact .of_same rfl rfl rfl rfl rfl rfl rfl rfl
      · exact .refl _

theorem outgoing_settleVote {n : Node} {own : RecordTx} (h : n.ownTx = some own) (turn : Turn)
    (v : Blockchain.StakeVote) : (n.settleVote crypto turn v).outgoing = n.outgoing := by
  cases v with
  | skip => rfl
  | throws => rfl
  | propose publicKey =>
      unfold settleVote
      rw [outgoing_andThen]
      · exact outgoing_proposeModifyStake h turn publicKey _ _
      · intro m
        split <;> rfl

/-- A transaction in flight that is not in the block goes back to the front. -/
theorem line_clear_of_not_mem {m : Node} {b : BlockStruct}
    (hnone : ∀ own, m.ownTx = some own → ∀ t ∈ b.tx, t.sig ≠ own.tx.sig) :
    (m.clear (some b)).line = m.line := by
  unfold clear Node.line
  cases hown : m.ownTx with
  | none => rfl
  | some own =>
      have hany : (b.tx.any fun t => decide (t.sig = own.tx.sig)) = false := by
        rw [List.any_eq_false]
        intro t ht heq
        exact hnone own hown t ht (of_decide_eq_true heq)
      dsimp only
      rw [Option.map_some, Option.map_some, hany]
      rfl

/-- A transaction in flight that is in the block is taken off the line. -/
theorem line_clear_of_mem {m : Node} {b : BlockStruct} {own : RecordTx} (hown : m.ownTx = some own)
    {t : TransactionStruct} (ht : t ∈ b.tx) (hsig : t.sig = own.tx.sig) :
    m.line = own.tx.record :: (m.clear (some b)).line := by
  have hany : (b.tx.any fun t => decide (t.sig = own.tx.sig)) = true :=
    List.any_eq_true.mpr ⟨t, ht, decide_eq_true hsig⟩
  unfold clear Node.line
  rw [hown]
  dsimp only
  rw [Option.map_some, Option.map_some, hany]
  rfl

/-- Whatever is signed with the key of this node is in a block under its name. -/
theorem origin_of_sig (hbind : crypto.SignBinding) {l : Ledger} {b : BlockStruct}
    (hb : WellFormedBlock crypto l b) {t : TransactionStruct} (ht : t ∈ b.tx) {publicKey d : Text}
    (hsig : t.sig = crypto.sign publicKey d) : t.origin = publicKey := by
  have hverified := (validateTx_iff.mp (hb.txs t ht)).2.2.1
  rw [hsig] at hverified
  exact (hbind _ _ _ _ hverified).1.symm

/-- Two transactions with one header. -/
theorem exists_of_header {tx tx' : List TransactionStruct}
    (hheader : tx.map TransactionStruct.header = tx'.map TransactionStruct.header)
    {t : TransactionStruct} (ht : t ∈ tx) : ∃ t' ∈ tx', t'.origin = t.origin ∧ t'.sig = t.sig := by
  have hmem : t.header ∈ tx'.map TransactionStruct.header := hheader ▸ List.mem_map_of_mem ht
  obtain ⟨t', ht', heq⟩ := List.mem_map.mp hmem
  exact ⟨t', ht', congrArg Prod.fst heq, congrArg Prod.snd heq⟩

/-- The state in which a commit leaves the node, before it looks for the next
validator. -/
def afterCommit (crypto : Crypto) (n : Node) (turn : Turn) (i : Nat) (t : AddTask) : Node :=
  let m := n.updateCache crypto turn (n.objects t.obj)
  { m with toConsensus := m.toConsensus.finish i t m.chain }.clear (some (n.objects t.obj))

section

variable {turn : Turn} {i : Nat} {t : AddTask}

/-- What `updateCache` does to the line, over the chain with the new height. -/
theorem booked_updateCache (n : Node) (turn : Turn) (b : BlockStruct) :
    Booked crypto (n.setChain ((n.chain.cacheBlock b).countVotes b))
      (n.updateCache crypto turn b) :=
  booked_settleVote _ turn _

theorem outgoing_updateCache {own : RecordTx} (h : n.ownTx = some own) (turn : Turn)
    (b : BlockStruct) : (n.updateCache crypto turn b).outgoing = n.outgoing :=
  outgoing_settleVote (n := n.setChain ((n.chain.cacheBlock b).countVotes b)) h turn _

/-- **The block takes its record off the line**, and nothing else. -/
theorem line_afterCommit (turn : Turn) (hbind : crypto.SignBinding)
    (hs : Settled crypto genesis base n.toConsensus) (h : Conserved crypto n)
    (ht : n.adds[i]? = some t)
    (hmatch : n.ownTx = none → ∀ u ∈ t.stored.tx, u.origin ≠ n.chain.publicKey) :
    (n.updateCache crypto turn (n.objects t.obj)).line
        = ownRecords n.chain.publicKey t.stored ++ (afterCommit crypto n turn i t).line
      ∧ (n.ownTx = none → (afterCommit crypto n turn i t).line
        = (n.updateCache crypto turn (n.objects t.obj)).line) := by
  obtain ⟨l, hwf⟩ := wellFormed_stored hs ht
  obtain ⟨-, -, happly, -⟩ := hs.task ht
  obtain ⟨hknown, -, hheader⟩ := h.carried.adds t (List.mem_of_getElem? ht)
  have hbooked : Booked crypto _ (n.updateCache crypto turn (n.objects t.obj)) :=
    booked_updateCache n turn (n.objects t.obj)
  set b := n.objects t.obj
  set m := n.updateCache crypto turn b
  have hline : ({ m with toConsensus := m.toConsensus.finish i t m.chain } : Node).line = m.line :=
    rfl
  by_cases hown : ∃ u ∈ t.stored.tx, u.origin = n.chain.publicKey
  · -- the transaction is the one in flight
    obtain ⟨u, hu, huown⟩ := hown
    cases hslot : n.ownTx with
    | none => exact absurd huown (hmatch hslot u hu)
    | some own =>
        have hsent : n.Sent (n.chain.height + 1) u := happly.next ▸ hknown u hu huown
        obtain ⟨r, rest, hhead, rfl⟩ := h.sent_next u huown hsent
        have hrecord : r = own.tx.record := by
          rw [Node.line, hslot] at hhead
          exact (List.cons.inj hhead).1.symm
        have htx : n.signTx crypto r = own.tx := by
          rw [hrecord]
          exact (h.ownTx own hslot).2.symm
        have hslot' : m.ownTx = some own := by
          have hout : m.outgoing = n.outgoing := outgoing_updateCache hslot turn b
          exact (congrArg Prod.fst hout).trans hslot
        obtain ⟨u', hu', -, hsig⟩ := exists_of_header hheader.symm hu
        have hoff := line_clear_of_mem
          (m := { m with toConsensus := m.toConsensus.finish i t m.chain }) hslot' hu'
          (hsig.trans (by rw [htx]))
        refine ⟨?_, fun hnone => by cases hnone⟩
        rw [ownRecords_of_mem hwf.origins hu huown, htx, ← hline, hoff]
        rfl
  · -- no transaction in the block is signed with the key of this node
    have hnone : ∀ u ∈ t.stored.tx, u.origin ≠ n.chain.publicKey := fun u hu heq =>
      hown ⟨u, hu, heq⟩
    have hback := line_clear_of_not_mem
      (m := { m with toConsensus := m.toConsensus.finish i t m.chain }) (b := b) (by
        intro own hslot u' hu' hsig
        obtain ⟨u, hu, -, husig⟩ := exists_of_header hheader hu'
        have hmade : ∃ d, own.tx.sig = crypto.sign n.chain.publicKey d := by
          rcases hbooked.ownTx own hslot with hold | hnew
          · exact ⟨_, congrArg TransactionStruct.sig (h.ownTx own hold).2⟩
          · have hkey : m.chain.publicKey = n.chain.publicKey := hbooked.publicKey
            rw [← hkey]
            exact ⟨_, congrArg TransactionStruct.sig hnew.2⟩
        obtain ⟨d, hd⟩ := hmade
        exact hnone u hu (origin_of_sig hbind hwf hu ((husig.trans hsig).trans hd)))
    refine ⟨?_, fun _ => hback⟩
    rw [ownRecords_of_none hnone]
    exact hback.symm

/-- The consensus finishes, over the chain that the cache has been updated in. -/
theorem afterCommit_toConsensus (turn : Turn)
    (hrun : (n.updateCache crypto turn (n.objects t.obj)).halted = false) :
    (afterCommit crypto n turn i t).toConsensus
      = n.toConsensus.finish i t (n.updateCache crypto turn (n.objects t.obj)).chain := by
  obtain ⟨-, chain, -, hcore⟩ := updateCache_toConsensus n turn hrun
  show ((n.updateCache crypto turn (n.objects t.obj)).toConsensus.finish i t _).drop = _
  rw [hcore]
  rfl

theorem sent_afterCommit_eq (turn : Turn)
    (hrun : (n.updateCache crypto turn (n.objects t.obj)).halted = false) :
    (afterCommit crypto n turn i t).sent = n.sent :=
  (congrArg Consensus.sent (afterCommit_toConsensus turn hrun)).trans rfl

/-- What has been sent after a commit was sent before, or is made of the line
because nothing was in flight. -/
theorem sent_afterCommit (turn : Turn)
    (hrun : (n.updateCache crypto turn (n.objects t.obj)).halted = false) {height : Nat}
    {u : TransactionStruct} (hu : (afterCommit crypto n turn i t).Sent height u) :
    n.Sent height u
      ∨ (height = (n.objects t.obj).height + 1 ∧ n.ownTx = none
        ∧ Next crypto (n.updateCache crypto turn (n.objects t.obj)) u) := by
  obtain ⟨msg, hmsg, hcarries⟩ := hu
  rw [sent_afterCommit_eq turn hrun] at hmsg
  rcases List.mem_append.mp hmsg with hposted | hsent
  · rcases (booked_updateCache n turn (n.objects t.obj)).posted msg hposted height u hcarries with
      hold | ⟨hnew, hnext⟩
    · exact Or.inl ⟨msg, List.mem_append_left _ hold, hcarries⟩
    · cases hslot : n.ownTx with
      | none => exact Or.inr ⟨hnew, rfl, hnext⟩
      | some own =>
          -- With a transaction in flight nothing is posted.
          have hsame : (n.updateCache crypto turn (n.objects t.obj)).posted = n.posted :=
            congrArg Prod.snd (outgoing_updateCache hslot turn _)
          replace hposted : msg ∈ (n.updateCache crypto turn (n.objects t.obj)).posted := hposted
          rw [hsame] at hposted
          exact Or.inl ⟨msg, List.mem_append_left _ hposted, hcarries⟩
  · exact Or.inl ⟨msg, List.mem_append_right _ hsent, hcarries⟩

/-- A block whose own transactions have been sent stays one. -/
theorem known_afterCommit (turn : Turn)
    (hrun : (n.updateCache crypto turn (n.objects t.obj)).halted = false)
    (hkey : (afterCommit crypto n turn i t).chain.publicKey = n.chain.publicKey) {b : BlockStruct}
    (hb : n.Known b) : (afterCommit crypto n turn i t).Known b := by
  intro u hu hown
  rw [hkey] at hown
  obtain ⟨msg, hmsg, hcarries⟩ := hb u hu hown
  refine ⟨msg, ?_, hcarries⟩
  rw [sent_afterCommit_eq turn hrun]
  rcases List.mem_append.mp hmsg with hmsg | hmsg
  · exact List.mem_append_left _ ((booked_updateCache n turn (n.objects t.obj)).kept msg hmsg)
  · exact List.mem_append_right _ hmsg

/-- **A commit**, if no transaction of the node is committed while none is in
flight. -/
theorem Conserved.commit (hbind : crypto.SignBinding)
    (hs : Settled crypto genesis base n.toConsensus) (h : Conserved crypto n)
    (ht : n.adds[i]? = some t)
    (hrun : (n.updateCache crypto turn (n.objects t.obj)).halted = false)
    (hmatch : n.ownTx = none → ∀ u ∈ t.stored.tx, u.origin ≠ n.chain.publicKey) :
    Conserved crypto (afterCommit crypto n turn i t) := by
  obtain ⟨hoff, hback⟩ := line_afterCommit turn hbind hs h ht hmatch
  obtain ⟨-, -, happly, -⟩ := hs.task ht
  obtain ⟨answer, chain, hchain, hcore⟩ := updateCache_toConsensus n turn hrun
  have hcached := Blockchain.updateCache_spec hchain
  have hbooked : Booked crypto _ (n.updateCache crypto turn (n.objects t.obj)) :=
    booked_updateCache n turn (n.objects t.obj)
  have hmchain : (n.updateCache crypto turn (n.objects t.obj)).chain = chain :=
    congrArg Consensus.chain hcore
  have hkcore : (afterCommit crypto n turn i t).toConsensus = n.toConsensus.finish i t chain := by
    rw [afterCommit_toConsensus turn hrun, hmchain]
  have hkchain : (afterCommit crypto n turn i t).chain = chain := congrArg Consensus.chain hkcore
  have hblock : (n.objects t.obj).height = n.chain.height + 1 := by
    rw [happly.height_eq, happly.next]
  have hnext : chain.height = n.chain.height + 1 := hcached.height.trans hblock
  refine ⟨?_, ?_, fun _ h => (nomatch h), ?_, ?_, fun _ h => (nomatch h), fun _ h => (nomatch h), ?_⟩
  · obtain ⟨rs, haccepted, hline⟩ := hbooked.line
    have hcommitted : (afterCommit crypto n turn i t).committed = n.committed ++ [t.stored] :=
      congrArg Consensus.committed hkcore
    have hlinesame : (n.updateCache crypto turn (n.objects t.obj)).line = n.line ++ rs := hline
    show (n.updateCache crypto turn (n.objects t.obj)).accepted = _
    rw [hcommitted, hkchain, hcached.publicKey, List.flatMap_append, List.flatMap_singleton,
      List.append_assoc, ← hoff, hlinesame, haccepted, ← List.append_assoc, ← h.accounted]
    rfl
  · rw [hkchain, hcached.latestBlock, hcached.height]
    rfl
  · intro height u hu
    rw [hkchain, hnext]
    rcases sent_afterCommit turn hrun hu with hold | ⟨rfl, -, -⟩
    · exact Nat.le_succ_of_le (h.sent_le height u hold)
    · rw [hblock]
  -- what has been sent for the height after the next can only be new
  · intro u hown hu
    rw [hkchain, hnext] at hu
    rcases sent_afterCommit turn hrun hu with hold | ⟨-, hslot, r, rest, hhead, rfl⟩
    · exact absurd (h.sent_le _ u hold) (by omega)
    · refine ⟨r, rest, (hback hslot).trans hhead, ?_⟩
      exact signTx_congr (by rw [hkchain, hmchain]) (by rw [hkchain, hmchain]) r
  · have hkey : (afterCommit crypto n turn i t).chain.publicKey = n.chain.publicKey := by
      rw [hkchain, hcached.publicKey]
    have hmono : ∀ b, n.Known b → (afterCommit crypto n turn i t).Known b :=
      fun b hb => known_afterCommit turn hrun hkey hb
    rw [hkcore]
    exact (h.carried.mono hmono).finish

end

/-! ## §4. Runs. -/

/-- What comes in carries no transaction of this node but those it has sent. -/
def Faithful (n : Node) : Event → Prop
  | .message ⟨_, _, _, .addTx height tx⟩ =>
      tx.origin = n.chain.publicKey → n.Sent height tx
  | .message ⟨_, _, _, .proposeBlock b⟩ => n.Known b
  | .syncAnswer blocks => ∀ b ∈ blocks, n.Known b
  | _ => True

/-- A call of `add` that returns while no transaction is in flight brings none of
this node, and the retry timer does not fire while a block with the transaction
in flight is being added. -/
def Matched (n : Node) : Event → Prop
  | .resumeAdd i =>
      ∀ t ∈ n.adds[i]?, n.pending t = none → n.ownTx = none →
        ∀ u ∈ t.stored.tx, u.origin ≠ n.chain.publicKey
  | .timeoutRetry =>
      n.timeoutRetry = true → ∀ own ∈ n.ownTx, ∀ t ∈ n.adds, ∀ u ∈ t.stored.tx,
        u.sig ≠ own.tx.sig
  | _ => True

instance (n : Node) : ∀ e : Event, Decidable (n.Faithful e)
  | .message ⟨_, _, _, .addTx ..⟩ => inferInstanceAs (Decidable (_ → Sent _ _ _))
  | .message ⟨_, _, _, .proposeBlock _⟩ => inferInstanceAs (Decidable (Known _ _))
  | .message ⟨_, _, _, .signBlock ..⟩ => isTrue trivial
  | .message ⟨_, _, _, .confirmBlock ..⟩ => isTrue trivial
  | .message ⟨_, _, _, .status ..⟩ => isTrue trivial
  | .syncAnswer blocks => inferInstanceAs (Decidable (∀ b ∈ blocks, Known _ b))
  | .stackTx .. => isTrue trivial
  | .timeoutAddTx => isTrue trivial
  | .timeoutProposeBlock => isTrue trivial
  | .timeoutRetry => isTrue trivial
  | .timeoutStatus => isTrue trivial
  | .resumeAdd _ => isTrue trivial
  | .continueSync => isTrue trivial
  | .p2pNetwork => isTrue trivial

instance (n : Node) : ∀ e : Event, Decidable (n.Matched e)
  | .resumeAdd i =>
      inferInstanceAs (Decidable (∀ t ∈ n.adds[i]?, n.pending t = none → n.ownTx = none →
        ∀ u ∈ t.stored.tx, u.origin ≠ n.chain.publicKey))
  | .timeoutRetry =>
      inferInstanceAs (Decidable (n.timeoutRetry = true → ∀ own ∈ n.ownTx, ∀ t ∈ n.adds,
        ∀ u ∈ t.stored.tx, u.sig ≠ own.tx.sig))
  | .message _ => isTrue trivial
  | .syncAnswer _ => isTrue trivial
  | .stackTx .. => isTrue trivial
  | .timeoutAddTx => isTrue trivial
  | .timeoutProposeBlock => isTrue trivial
  | .timeoutStatus => isTrue trivial
  | .continueSync => isTrue trivial
  | .p2pNetwork => isTrue trivial

/-- A turn that changes the consensus part without its top, and the flags. -/
theorem Booked.of_sameTop {m : Node} (htop : Consensus.SameTop n.toConsensus m.toConsensus)
    (haccepted : m.accepted = n.accepted) (hstack : m.stackTransaction = n.stackTransaction)
    (hown : m.ownTx = n.ownTx) (hposted : m.posted = n.posted) (hcurrent : m.current = n.current)
    (hpool : m.arrayPoolTx = n.arrayPoolTx) : Booked crypto n m :=
  .of_same htop.publicKey htop.height haccepted hstack hown hposted hcurrent hpool

theorem booked_processProposeBlock (n : Node) (turn : Turn) (b : BlockStruct) :
    Booked crypto n (n.processProposeBlock crypto turn b) := by
  unfold processProposeBlock
  split
  · have hhold : Booked crypto n { n with toConsensus := n.toConsensus.hold b } :=
      .of_same rfl rfl rfl rfl rfl rfl rfl rfl
    refine (hhold.trans (booked_calcValidator _ turn)).andThen ?_
    have happrove : ∀ (c : Consensus) (now : Nat) (validator hash : Text),
        Consensus.SameTop (c.sign hash) (c.approve crypto now validator hash) :=
      Consensus.sameTop_approve
    refine Booked.andThen ?_ (booked_setupRetry _)
    exact .of_same (happrove _ _ _ _).publicKey (happrove _ _ _ _).height rfl rfl rfl rfl rfl rfl
  · exact .refl n

theorem booked_processMessage (h : Conserved crypto n) (turn : Turn) {m : Message}
    (hfaithful : n.Faithful (.message m)) : Booked crypto n (n.processMessage crypto turn m) := by
  have hcalc : Booked crypto n (n.calcValidator turn) := booked_calcValidator n turn
  obtain ⟨seq, origin, dest, data⟩ := m
  unfold processMessage
  cases data with
  -- Only this message brings a transaction: the node's own has to be the one it sent.
  | addTx height tx =>
      refine hcalc.andThen ?_
      split
      · refine booked_processAddTx _ origin height fun hown hheight => hcalc.next ?_
        rw [hcalc.publicKey] at hown
        rw [hcalc.height] at hheight
        exact h.sent_next tx hown (hheight ▸ hfaithful hown)
      · exact .refl _
  | proposeBlock b =>
      refine hcalc.andThen ?_
      split
      · exact booked_processProposeBlock _ turn b
      · exact .refl _
  | signBlock hash sig =>
      refine hcalc.andThen ?_
      split
      · exact .of_sameTop (Consensus.sameTop_processSignBlock _ _ _ _ _) rfl rfl rfl rfl rfl rfl
      · exact .refl _
  | confirmBlock hash votes =>
      refine hcalc.andThen ?_
      split
      · exact .of_sameTop (Consensus.sameTop_processConfirmBlock _ _ _) rfl rfl rfl rfl rfl rfl
      · exact .refl _
  | status kind height =>
      show Booked crypto n (n.processStatus crypto turn origin kind height)
      unfold processStatus
      dsimp only
      have hfetch : Booked crypto n { n with toConsensus := n.toConsensus.fetchSync height } :=
        .of_sameTop (Consensus.sameTop_fetchSync _ height) rfl rfl rfl rfl rfl rfl
      split
      · split
        · exact hfetch.trans (booked_proposeModifyStake _ turn _ _ _)
        · exact hfetch
      · exact .refl n

/-- **What an event does to the line**, unless a call of `add` goes on. -/
theorem booked_react (h : Conserved crypto n) (turn : Turn) {e : Event}
    (hfaithful : n.Faithful e) (he : ∀ i, e ≠ .resumeAdd i) :
    Booked crypto n (n.react crypto turn e) := by
  cases e with
  | stackTx commands ident => exact (booked_stack n turn _ ident).trans (booked_rescue _ turn)
  | message m =>
      rw [react]
      split
      · exact booked_processMessage h turn hfaithful
      · exact .refl n
  | timeoutAddTx =>
      rw [react]
      split
      · have hflag : Booked crypto n { n with timeoutAddTx := false } :=
          .of_same rfl rfl rfl rfl rfl rfl rfl rfl
        exact hflag.trans (booked_doAddTx _ turn)
      · exact .refl n
  | timeoutProposeBlock =>
      rw [react]
      split
      · exact .of_same rfl rfl rfl rfl rfl rfl rfl rfl
      · exact .refl n
  -- The retry empties the pool first and then takes up the next own transaction.
  | timeoutRetry =>
      rw [react]
      split
      · exact (booked_clear n).trans (booked_doAddTx _ turn)
      · exact .refl n
  | timeoutStatus => exact booked_post n fun _ _ hcarries => by cases hcarries
  | resumeAdd i => exact absurd rfl (he i)
  | syncAnswer blocks =>
      exact .of_sameTop (Consensus.sameTop_answerSync n.toConsensus blocks) rfl rfl rfl rfl rfl rfl
  | continueSync =>
      exact .of_sameTop (Consensus.sameTop_continueSync n.toConsensus) rfl rfl rfl rfl rfl rfl
  | p2pNetwork =>
      rw [react]
      split <;> exact .of_same rfl rfl rfl rfl rfl rfl rfl rfl

/-- A faithful event brings in no other transactions of this node. -/
theorem brings_of_faithful {m : Node} (hbooked : Booked crypto n m)
    {turn : Turn} {e : Event} (hfaithful : n.Faithful e) {kind : Kind} (hfrom : kind.from n turn e)
    (hmove : Move crypto n.toConsensus kind m.toConsensus) :
    Brings crypto m.Known n.toConsensus kind := by
  have hknown : ∀ b, n.Known b → m.Known b := by
    intro b hb t ht hown
    rw [hbooked.publicKey] at hown
    exact sent_mono hbooked hmove (hb t ht hown)
  cases kind with
  | propose pool =>
      intro t ht _
      -- the proposal has just been sent
      generalize hc : m.toConsensus = c' at hmove
      cases hmove with
      | propose now pool =>
          have hsent : n.message now [] (.proposeBlock (n.proposal crypto pool)) ∈ m.sent := by
            show _ ∈ m.toConsensus.sent
            rw [hc]
            exact List.mem_append_right _ List.mem_cons_self
          refine ⟨_, List.mem_append_right _ hsent, ?_⟩
          show (decide _ && decide _) = true
          rw [decide_eq_true rfl, decide_eq_true ht]
          rfl
  | accept b =>
      obtain ⟨⟨_, _, _, data⟩, rfl, hdata, -⟩ := hfrom
      obtain rfl : data = .proposeBlock b := hdata
      exact hknown b hfaithful
  | answer blocks =>
      obtain rfl : e = .syncAnswer blocks := hfrom
      exact fun b hb => hknown b (hfaithful b hb)
  | vote origin hash sig => trivial
  | confirm hash votes => trivial
  | drop => trivial
  | command oc => trivial
  | commit t => trivial
  | other => trivial

theorem adds_le_one {c : Consensus} (hs : Settled crypto genesis base c) : c.adds.length ≤ 1 := by
  have hphase := hs.phase
  match hadds : c.adds with
  | [] => exact Nat.zero_le 1
  | [_] => exact Nat.le_refl 1
  | _ :: _ :: _ =>
      rw [hadds] at hphase
      exact hphase.elim

/-- **A faithful turn that commits nothing.** -/
theorem Conserved.uncommitted (hs : Settled crypto genesis base n.toConsensus)
    (h : Conserved crypto n) {turn : Turn} {e : Event}
    (hs' : Settled crypto genesis base (n.step crypto turn e).toConsensus)
    (hfaithful : n.Faithful e) (kind : Kind) (hfrom : kind.from n turn e)
    (hmove : Move crypto n.toConsensus kind (n.step crypto turn e).toConsensus)
    (hkind : ∀ t, kind ≠ .commit t) (hbooked : Booked crypto n (n.step crypto turn e)) :
    Conserved crypto (n.step crypto turn e) := by
  refine h.booked hs hbooked hmove hkind ?_ ?_ (adds_le_one hs')
  · rintro pool rfl
    exact hfrom.2.2
  · exact brings_of_faithful hbooked hfaithful hfrom hmove

/-- **The end of a call of `add`** is its commit, and the flags after it. -/
theorem Conserved.finish (hbind : crypto.SignBinding)
    (hs : Settled crypto genesis base n.toConsensus) (h : Conserved crypto n) {turn : Turn}
    {i : Nat} {t : AddTask} (ht : n.adds[i]? = some t) (hp : n.pending t = none)
    (hs' : Settled crypto genesis base (n.step crypto turn (.resumeAdd i)).toConsensus)
    (hmatched : n.Matched (.resumeAdd i))
    (hstep : n.step crypto turn (.resumeAdd i) = n.finishAdd crypto turn i t)
    (hrun : (n.updateCache crypto turn (n.objects t.obj)).halted = false) :
    Conserved crypto (n.step crypto turn (.resumeAdd i)) := by
  -- After the commit `finishAdd` works out the validator and arms the timer for the own
  -- transactions; neither touches the line.
  have hcommit : n.step crypto turn (.resumeAdd i)
      = ((afterCommit crypto n turn i t).calcValidator turn).andThen
          fun n => { n with timeoutAddTx := true } := by
    rw [hstep, finishAdd]
    exact if_neg (by rw [hrun]; exact Bool.false_ne_true)
  have hcore : (n.step crypto turn (.resumeAdd i)).toConsensus
      = (afterCommit crypto n turn i t).toConsensus := by
    rw [hcommit, andThen_toConsensus, calcValidator_toConsensus]
    exact fun _ => rfl
  have hbooked : Booked crypto (afterCommit crypto n turn i t)
      (n.step crypto turn (.resumeAdd i)) := by
    rw [hcommit]
    exact (booked_calcValidator _ turn).andThen (.of_same rfl rfl rfl rfl rfl rfl rfl rfl)
  have hquiet : Move crypto (afterCommit crypto n turn i t).toConsensus .other
      (n.step crypto turn (.resumeAdd i)).toConsensus := by
    rw [hcore]
    exact .quiet _
  exact (h.commit hbind hs ht hrun (hmatched t ht hp)).booked (hcore ▸ hs') hbooked hquiet
    (fun _ h => nomatch h) (fun _ h => nomatch h) trivial (adds_le_one hs')

/-- **A turn of a call of `add`.** -/
theorem Conserved.resume (hbind : crypto.SignBinding)
    (hs : Settled crypto genesis base n.toConsensus) (h : Conserved crypto n) {turn : Turn}
    {i : Nat} (hs' : Settled crypto genesis base (n.step crypto turn (.resumeAdd i)).toConsensus)
    (hfaithful : n.Faithful (.resumeAdd i)) (hmatched : n.Matched (.resumeAdd i))
    (hstep : n.step crypto turn (.resumeAdd i) = n.react crypto turn (.resumeAdd i)) :
    Conserved crypto (n.step crypto turn (.resumeAdd i)) := by
  have hquiet := h.uncommitted hs hs' hfaithful
  cases ht : n.adds[i]? with
  | none =>
      have hstay : n.step crypto turn (.resumeAdd i) = n := by
        rw [hstep, react, resumeAdd, ht]
      rw [hstay]
      exact h
  | some t =>
      -- A task runs its commands one by one; only with none pending does it commit.
      cases hp : n.pending t with
      | some oc =>
          have hrun : n.step crypto turn (.resumeAdd i)
              = { n with
                  toConsensus := n.toConsensus.runCommand i t oc
                  mapStakeCredit := n.credited oc.1 oc.2 } := by
            rw [hstep, react, resumeAdd, ht]
            dsimp only
            rw [hp]
          rw [hrun] at hquiet ⊢
          exact hquiet (.command oc) ⟨i, t, rfl, ht, hp⟩ (.runCommand _ i t oc ht hp)
            (fun _ h => by cases h)
            (.of_same rfl rfl rfl rfl rfl rfl rfl rfl)
      | none =>
          have hfinish : n.step crypto turn (.resumeAdd i) = n.finishAdd crypto turn i t := by
            rw [hstep, react, resumeAdd, ht]
            dsimp only
            rw [hp]
          cases hrun : (n.updateCache crypto turn (n.objects t.obj)).halted with
          | true =>
              have hstay : n.step crypto turn (.resumeAdd i) = { n with halted := true } := by
                rw [hfinish, finishAdd]
                exact if_pos hrun
              rw [hstay] at hquiet ⊢
              exact hquiet .other trivial (.quiet _) (fun _ h => by cases h)
                (.of_same rfl rfl rfl rfl rfl rfl rfl rfl)
          | false => exact h.finish hbind hs ht hp hs' hmatched hfinish hrun

/-- **Every faithful and matched turn.** -/
theorem Conserved.step (hbind : crypto.SignBinding)
    (hs : Settled crypto genesis base n.toConsensus) (h : Conserved crypto n) {turn : Turn}
    {e : Event} (hs' : Settled crypto genesis base (n.step crypto turn e).toConsensus)
    (hfaithful : n.Faithful e) (hmatched : n.Matched e) : Conserved crypto (n.step crypto turn e) := by
  cases hhalted : n.halted with
  | true =>
      rw [step_of_halted crypto hhalted]
      exact h
  | false =>
      have hstep := step_of_running crypto hhalted turn e
      -- Only the resumption of a task can commit, so all other events move no block.
      by_cases hresume : ∃ i, e = .resumeAdd i
      · obtain ⟨i, rfl⟩ := hresume
        exact h.resume hbind hs hs' hfaithful hmatched hstep
      · obtain ⟨kind, hfrom, hmove⟩ : ∃ kind, kind.from n turn e ∧ Move crypto _ kind _ :=
          n.step_moves turn e
        have hcommit : ∀ t, kind ≠ .commit t := by
          rintro t rfl
          obtain ⟨i, he, -⟩ := hfrom
          exact hresume ⟨i, he⟩
        refine h.uncommitted hs hs' hfaithful kind hfrom hmove hcommit ?_
        rw [hstep]
        exact booked_react h turn hfaithful fun i he => hresume ⟨i, he⟩

/-- One call of `add` at a time, and what comes in is faithful. -/
def Orderly (crypto : Crypto) (n : Node) (turn : Turn) (e : Event) : Prop :=
  Sequential crypto n turn e ∧ n.Faithful e

/-- The same, and every call of `add` that returns is matched. -/
def Conserving (crypto : Crypto) (n : Node) (turn : Turn) (e : Event) : Prop :=
  Orderly crypto n turn e ∧ n.Matched e

instance (n : Node) (turn : Turn) (e : Event) : Decidable (Orderly crypto n turn e) :=
  inferInstanceAs (Decidable (_ ∧ _))

instance (n : Node) (turn : Turn) (e : Event) : Decidable (Conserving crypto n turn e) :=
  inferInstanceAs (Decidable (_ ∧ _))

/-- Everything accepted is in the committed blocks, in its order and once, or
still to come. -/
def AllAccounted (n : Node) : Prop :=
  n.accepted = n.committed.flatMap (ownRecords n.chain.publicKey)
    ++ (n.ownTx.map fun own => own.tx.record).toList ++ n.stackTransaction

instance (n : Node) : Decidable n.AllAccounted :=
  inferInstanceAs (Decidable (n.accepted = _))

/-- **Conservation.**  In every run of conserving turns the transactions that
`stack` has accepted are those in the committed blocks, then the one in flight,
then those in the stack. -/
theorem transactions_conserved {publicKey : Text} {chain : Blockchain}
    (hbind : crypto.SignBinding) (hg : 1 ≤ genesis.height)
    (hchain : Blockchain.Runs crypto publicKey genesis chain)
    (h : Reaches crypto (Conserving crypto) (start chain) n) : n.AllAccounted := by
  obtain ⟨hbs, hholds⟩ := hchain.holds hg
  have hconserved : Conserved crypto n := by
    induction h with
    | refl => exact conserved_start (hchain.top hg)
    | @step m hm turn e hok ih =>
        have hsettled : ∀ {k : Node}, Reaches crypto (Conserving crypto) (start chain) k →
            Settled crypto genesis chain.chain k.toConsensus :=
          fun hk => (hk.weaken fun _ _ _ h => h.1.1).settled hbs hholds
        exact ih.step hbind (hsettled hm) (hsettled (hm.step turn e hok)) hok.1.2 hok.2
  rw [AllAccounted, List.append_assoc]
  exact hconserved.accounted

/-! ## §5. A transaction that is committed, and one that is taken back. -/

open Blockchain (sampleCrypto sampleStart sampleTx sampleBlock start_sampleStart proposal proposalTx)

/-- Peer 0 stacks a transaction, and peer 1 brings it into a block. -/
def stackedAndCommitted : List (Turn × Event) :=
  [(allOnline, .p2pNetwork), (allOnline, .stackTx sampleTx.commands ['t']),
    (allOnline, proposeSample),
    (allOnline, .message (messageOf 1 (.confirmBlock (label 43 1) (sampleBlock [1, 2]).votes))),
    (allOnline, .resumeAdd 0), (allOnline, .resumeAdd 0), (allOnline, .resumeAdd 0)]

def afterOwnBlock : Node := (start (sampleStart 0)).run sampleCrypto stackedAndCommitted

theorem transactions_conserved_of_sample :
    afterOwnBlock.accepted = [sampleTx.record] ∧ afterOwnBlock.AllAccounted := by
  refine ⟨by decide +kernel, ?_⟩
  exact transactions_conserved (tableCrypto_signBinding _ _) (by decide) (.start start_sampleStart)
    (Reaches.refl.run _ (by decide +kernel))

/-- What peer 0 proposes once two proposals have come together. -/
def stakeCommands : List Command :=
  [setSeq (stakeCommand (keyOf 2) STAKE_PING_IDENT STAKE_PING_AMOUNT) 1,
    setSeq (stakeCommand (keyOf 3) STAKE_VOTE_IDENT STAKE_VOTE_AMOUNT) 2]

/-- A turn in which all four peers are online and the pings of a peer count. -/
def fourOnline : Turn :=
  { isOnline := fun _ => true, countOnline := 4, nanoid := ['n'], now := 1, pingVote := true,
    caught := false }

/-- A block of peer 1 over four peers whose hash starts a stake vote. -/
def votedBlock (votes : List Nat) : BlockStruct :=
  { version := BLOCK_VERSION
    previousHash := label 43 0
    hash := zeros 43
    tx := [proposalTx 1 ['a'] 12]
    height := 2
    votes := votes.map fun i => { origin := keyOf i, sig := label 86 (i + 1) } }

/-- The block of peer 2 after that, with the stake proposals of peer 0. -/
def nextBlock (votes : List Nat) : BlockStruct :=
  { version := BLOCK_VERSION
    previousHash := zeros 43
    hash := label 43 1
    tx := [{ ident := ['n'], origin := keyOf 0, commands := stakeCommands, sig := label 86 0,
             keys := TransactionStruct.fields }]
    height := 3
    votes := votes.map fun i => { origin := keyOf i, sig := label 86 (i + 4) } }

def votedTable : Crypto :=
  tableCrypto [genesisText 4, hashText BLOCK_VERSION (zeros 43) (nextBlock []).tx 3]
    [(keyOf 0, signedText 3 stakeCommands), (keyOf 1, signedText 2 [proposal (keyOf 0) ['a'] 12]),
      (keyOf 1, zeros 43), (keyOf 2, zeros 43), (keyOf 3, zeros 43),
      (keyOf 1, label 43 1), (keyOf 2, label 43 1), (keyOf 3, label 43 1)]

/-- The hash of the voted block has one character only. -/
def votedCrypto : Crypto :=
  { votedTable with
    hash := fun d =>
      if d = hashText BLOCK_VERSION (label 43 0) (votedBlock []).tx 2 then zeros 43
      else votedTable.hash d }

theorem votedCrypto_signBinding : votedCrypto.SignBinding := by
  have htable : votedTable.SignBinding := tableCrypto_signBinding _ _
  exact fun pk pk' d d' h => htable pk pk' d d' h

def votedGenesis : BlockStruct := Blockchain.genesis votedCrypto (genesisFile 4)

def votedStart : Blockchain :=
  ((Blockchain.fresh (keyOf 0) 100).reset (fun _ => true) votedGenesis).getD (Blockchain.fresh [] 0)

/-- Peer 0 takes part in the two blocks. -/
def stackedInside : List (Turn × Event) :=
  [(fourOnline, .p2pNetwork), (fourOnline, .message (messageOf 2 (.status ONLINE 1))),
    (fourOnline, .message (messageOf 1 (.proposeBlock (votedBlock [1])))),
    (fourOnline, .message (messageOf 1 (.confirmBlock (zeros 43) (votedBlock [1, 2, 3]).votes))),
    (fourOnline, .resumeAdd 0), (fourOnline, .resumeAdd 0),
    (fourOnline, .message (messageOf 2 (.proposeBlock (nextBlock [2])))),
    (fourOnline, .message (messageOf 2 (.confirmBlock (label 43 1) (nextBlock [1, 2, 3]).votes))),
    (fourOnline, .resumeAdd 0), (fourOnline, .resumeAdd 0), (fourOnline, .resumeAdd 0)]

def afterStackedInside : Node := (start votedStart).run votedCrypto stackedInside

/-- **Taken back and committed**: `updateCache` sends the stake proposals off,
`clear` puts them back into the stack, and the next block has them. -/
theorem transaction_twice :
    ¬ ∀ (crypto : Crypto) (publicKey : Text) (genesis : BlockStruct) (chain : Blockchain),
      crypto.SignBinding → 1 ≤ genesis.height → Blockchain.Runs crypto publicKey genesis chain →
        ∀ n, Reaches crypto (Orderly crypto) (start chain) n → n.halted = false →
          n.AllAccounted := by
  intro hclaim
  have hstart : (Blockchain.fresh (keyOf 0) 100).reset (fun _ => true) votedGenesis
      = some votedStart := by decide +kernel
  have haccounted := hclaim votedCrypto (keyOf 0) votedGenesis votedStart votedCrypto_signBinding
    (by decide) (.start hstart) afterStackedInside (Reaches.refl.run _ (by decide +kernel))
    (by decide +kernel)
  exact absurd haccounted (by decide +kernel)

end Node

end Divachain
