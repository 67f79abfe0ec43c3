/-
  Divachain.Chain.Ledger — the state the commands of a block write.

  `Ledger` holds the fields of `Blockchain` that depend on transactions
  alone: the peers with their stakes, the running total `quorumWeighted`,
  the tallies of pending stake changes and the state database.  One function
  for each command; `processState` runs the commands of a block in order.

  `modifyStake` writes to the command it applies (a stake cannot drop below
  zero), so applying a command returns the command as it is afterwards.

  Main results:
    * `modifyStake_cases` — everything a stake proposal can do;
    * `change_apply` — everything a command can do;
    * `processState_fst` — the ledger after a block is the fold of its
      commands, whatever was written back to them.
-/
import Divachain.Chain.Schema
import Divachain.Lib.OrdMap
import Divachain.Lib.Store

namespace Divachain

open DataKit

/-! ## §1. Fields and reads. -/

structure Peer where
  publicKey : Text
  http : Text
  udp : Text
  stake : Int
  deriving DecidableEq, Repr

structure Ledger where
  mapPeer : OrdMap Text Peer
  mapHttp : OrdMap Text Text
  mapUdp : OrdMap Text Text
  quorumWeighted : Int
  mapModifyStake : OrdMap Text (List Text)
  dbState : Store Text Text
  /-- Namespace and data of the decisions taken; no code adds one. -/
  arrayTakenDecision : List (Text × Text)
  deriving DecidableEq

namespace Ledger

/-- The ledger of a new instance. -/
def fresh : Ledger := ⟨.empty, .empty, .empty, 0, .empty, .empty, []⟩

def hasPeer (l : Ledger) (publicKey : Text) : Bool := l.mapPeer.has publicKey

def getStake (l : Ledger) (publicKey : Text) : Int :=
  match l.mapPeer.get? publicKey with
  | some peer => peer.stake
  | none => 0

/-- The stakes of the origins together. -/
def weightOf (l : Ledger) (arrayOrigin : List Text) : Int := (arrayOrigin.map l.getStake).sum

/-- `w > quorumWeighted * 0.5`. -/
def hasQuorumWeighted (l : Ledger) (arrayOrigin : List Text) : Bool :=
  decide (l.quorumWeighted < 2 * l.weightOf arrayOrigin)

/-- Only the namespace counts. -/
def isDecisionTaken (l : Ledger) (ns : Text) : Bool :=
  l.arrayTakenDecision.any fun o => decide (o.1 = ns)

/-! ## §2. One function for each command. -/

/-- `'peer:' + publicKey`. -/
def statePeerIdent (publicKey : Text) : Text := ['p', 'e', 'e', 'r', ':'] ++ publicKey

def addPeer (l : Ledger) (http udp publicKey : Text) : Ledger :=
  -- a known peer keeps its addresses
  if l.mapPeer.has publicKey then l
  else
    { l with
      quorumWeighted := l.quorumWeighted + 1
      mapPeer := l.mapPeer.set publicKey ⟨publicKey, http, udp, 1⟩
      mapHttp := l.mapHttp.set http publicKey
      mapUdp := l.mapUdp.set udp publicKey
      dbState := l.dbState.put (statePeerIdent publicKey) (intText 1) }

def removePeer (l : Ledger) (publicKey : Text) : Ledger :=
  match l.mapPeer.get? publicKey with
  | none => l
  | some peer =>
      { l with
        quorumWeighted := l.quorumWeighted - peer.stake
        mapPeer := l.mapPeer.delete publicKey
        mapHttp := l.mapHttp.delete peer.http
        mapUdp := l.mapUdp.delete peer.udp
        dbState := l.dbState.del (statePeerIdent publicKey) }

/-- `[publicKey, ident, stake].join('')`. -/
def stakeKey (publicKey ident : Text) (stake : Int) : Text := publicKey ++ ident ++ intText stake

/-- The origins that have voted under a key. -/
def votersAt (l : Ledger) (i : Text) : List Text := (l.mapModifyStake.get? i).getD []

/-- A stake cannot drop below 0. -/
def clampStake (peer : Peer) (stake : Int) : Int :=
  if peer.stake + stake < 0 then -1 * peer.stake else stake

/-- The ledger and the stake that is left in the command. -/
def modifyStake (l : Ledger) (origin publicKey ident : Text) (stake : Int) : Ledger × Int :=
  match l.mapPeer.get? publicKey with
  | none => (l, stake)
  | some peer =>
      -- no peer votes on its own stake
      if publicKey = origin then (l, stake)
      else
        let i := stakeKey publicKey ident stake
        -- a voter is counted once for each key
        if origin ∈ l.votersAt i then (l, stake)
        else
          let a := l.votersAt i ++ [origin]
          let mapModifyStake := l.mapModifyStake.set i a
          if l.hasQuorumWeighted a then
            -- The new stake is also written back into the command.
            let stake := clampStake peer stake
            ({ l with
                mapModifyStake := mapModifyStake.delete i
                quorumWeighted := l.quorumWeighted + stake
                mapPeer := l.mapPeer.set publicKey { peer with stake := peer.stake + stake }
                dbState := l.dbState.put (statePeerIdent publicKey)
                  (intText (peer.stake + stake)) },
              stake)
          else ({ l with mapModifyStake := mapModifyStake }, stake)

/-- `JSON.stringify({ h: h, d: d })`. -/
def decisionText (h : Int) (d : Text) : Text :=
  objText leafText [(Field.h.name, .inr h), (Field.d.name, .inl d)]

/-- One round of the loop in `processState`: the ledger, and the command as it
is afterwards. -/
def processCommand (l : Ledger) (origin : Text) (c : Command) : Ledger × Command :=
  match c.body with
  | .addPeer http udp publicKey => (l.addPeer http udp publicKey, c)
  | .removePeer publicKey => (l.removePeer publicKey, c)
  | .modifyStake publicKey ident stake =>
      let r := l.modifyStake origin publicKey ident stake
      (r.1, { c with body := .modifyStake publicKey ident r.2 })
  | .data ns d => ({ l with dbState := l.dbState.put (ns ++ ':' :: origin) d }, c)
  -- A decision that is not taken leaves no trace.
  | .decision ns h d =>
      if l.isDecisionTaken ns then
        ({ l with dbState := l.dbState.put ns (decisionText h d) }, c)
      else (l, c)

def processCommands (l : Ledger) (origin : Text) : List Command → Ledger × List Command
  | [] => (l, [])
  | c :: cs =>
      let r := l.processCommand origin c
      let rs := r.1.processCommands origin cs
      (rs.1, r.2 :: rs.2)

/-- `processState`, run without a pause. -/
def processState (l : Ledger) : List TransactionStruct → Ledger × List TransactionStruct
  | [] => (l, [])
  | t :: tx =>
      let r := l.processCommands t.origin t.commands
      let rs := r.1.processState tx
      (rs.1, { t with commands := r.2 } :: rs.2)

/-! ## §3. The ledger after a block is a fold over its commands. -/

/-- Apply one command of an origin. -/
def apply (l : Ledger) (oc : Text × Command) : Ledger := (l.processCommand oc.1 oc.2).1

/-- Apply the commands of a block. -/
def applyTx (l : Ledger) (tx : List TransactionStruct) : Ledger := (commandsOf tx).foldl apply l

theorem processCommands_fst (origin : Text) :
    ∀ (l : Ledger) (cs : List Command),
      (l.processCommands origin cs).1 = (cs.map fun c => (origin, c)).foldl apply l
  | _, [] => rfl
  | l, c :: cs => by
      rw [List.map_cons, List.foldl_cons, ← processCommands_fst origin _ cs]
      rfl

/-- **The ledger after a block is the fold of its commands.** -/
theorem processState_fst :
    ∀ (l : Ledger) (tx : List TransactionStruct), (l.processState tx).1 = l.applyTx tx
  | _, [] => rfl
  | l, t :: tx => by
      have hrest := processState_fst (l.processCommands t.origin t.commands).1 tx
      rw [applyTx, commandsOf_cons, List.foldl_append, ← processCommands_fst]
      exact hrest

/-! ## §4. What a stake proposal can do. -/

/-- The proposal of `origin` is counted and reaches the quorum. -/
structure TakesEffect (l : Ledger) (origin publicKey ident : Text) (stake : Int)
    (peer : Peer) : Prop where
  peer_eq : l.mapPeer.get? publicKey = some peer
  foreign : publicKey ≠ origin
  counted : origin ∉ l.votersAt (stakeKey publicKey ident stake)
  quorum : l.hasQuorumWeighted (l.votersAt (stakeKey publicKey ident stake) ++ [origin]) = true

/-- The ledger once the proposal has been counted. -/
def tallied (l : Ledger) (origin publicKey ident : Text) (stake : Int) : Ledger :=
  { l with
    mapModifyStake := l.mapModifyStake.set (stakeKey publicKey ident stake)
      (l.votersAt (stakeKey publicKey ident stake) ++ [origin]) }

/-- The ledger once the proposal has taken effect. -/
def effect (l : Ledger) (origin publicKey ident : Text) (stake : Int) (peer : Peer) : Ledger :=
  { l with
    mapModifyStake := (l.tallied origin publicKey ident stake).mapModifyStake.delete
      (stakeKey publicKey ident stake)
    quorumWeighted := l.quorumWeighted + clampStake peer stake
    mapPeer := l.mapPeer.set publicKey { peer with stake := peer.stake + clampStake peer stake }
    dbState := l.dbState.put (statePeerIdent publicKey)
      (intText (peer.stake + clampStake peer stake)) }

/-- **Everything a stake proposal can do**: nothing, a vote in the tally, or
the change itself. -/
theorem modifyStake_cases (l : Ledger) (origin publicKey ident : Text) (stake : Int) :
    ((∀ peer, ¬ l.TakesEffect origin publicKey ident stake peer)
        ∧ l.modifyStake origin publicKey ident stake = (l, stake))
    ∨ ((∀ peer, ¬ l.TakesEffect origin publicKey ident stake peer)
        ∧ publicKey ≠ origin ∧ origin ∉ l.votersAt (stakeKey publicKey ident stake)
        ∧ l.modifyStake origin publicKey ident stake =
            (l.tallied origin publicKey ident stake, stake))
    ∨ ∃ peer, l.TakesEffect origin publicKey ident stake peer
        ∧ l.modifyStake origin publicKey ident stake =
            (l.effect origin publicKey ident stake peer, clampStake peer stake) := by
  unfold modifyStake
  -- One case for each guard of the source, in its order.
  cases hpeer : l.mapPeer.get? publicKey with
  | none =>
      refine Or.inl ⟨fun peer h => ?_, rfl⟩
      exact Option.some_ne_none peer (h.peer_eq.symm.trans hpeer)
  | some peer =>
      dsimp only
      by_cases hforeign : publicKey = origin
      · exact Or.inl ⟨fun _ h => h.foreign hforeign, if_pos hforeign⟩
      rw [if_neg hforeign]
      by_cases hcounted : origin ∈ l.votersAt (stakeKey publicKey ident stake)
      · exact Or.inl ⟨fun _ h => h.counted hcounted, if_pos hcounted⟩
      rw [if_neg hcounted]
      by_cases hquorum : l.hasQuorumWeighted
          (l.votersAt (stakeKey publicKey ident stake) ++ [origin]) = true
      · rw [if_pos hquorum]
        exact Or.inr (Or.inr ⟨peer, ⟨hpeer, hforeign, hcounted, hquorum⟩, rfl⟩)
      · rw [if_neg hquorum]
        exact Or.inr (Or.inl ⟨fun _ h => hquorum h.quorum, hforeign, hcounted, rfl⟩)

theorem votersAt_tallied (l : Ledger) (origin publicKey ident : Text) (stake : Int) (i : Text) :
    (l.tallied origin publicKey ident stake).votersAt i =
      if i = stakeKey publicKey ident stake then
        l.votersAt (stakeKey publicKey ident stake) ++ [origin]
      else l.votersAt i := by
  unfold votersAt tallied
  dsimp only
  rw [OrdMap.get?_set]
  split <;> rfl

theorem votersAt_effect (l : Ledger) (origin publicKey ident : Text) (stake : Int) (peer : Peer)
    (i : Text) :
    (l.effect origin publicKey ident stake peer).votersAt i =
      if i = stakeKey publicKey ident stake then [] else l.votersAt i := by
  unfold votersAt effect
  dsimp only
  rw [OrdMap.get?_delete]
  split
  next => rfl
  next h => exact (votersAt_tallied l origin publicKey ident stake i).trans (if_neg h)

/-! ## §5. What a command can do. -/

/-- The ledger once a peer has joined. -/
def join (l : Ledger) (http udp publicKey : Text) : Ledger :=
  { l with
    quorumWeighted := l.quorumWeighted + 1
    mapPeer := l.mapPeer.set publicKey ⟨publicKey, http, udp, 1⟩
    mapHttp := l.mapHttp.set http publicKey
    mapUdp := l.mapUdp.set udp publicKey
    dbState := l.dbState.put (statePeerIdent publicKey) (intText 1) }

/-- The ledger once a peer has left. -/
def leave (l : Ledger) (publicKey : Text) (peer : Peer) : Ledger :=
  { l with
    quorumWeighted := l.quorumWeighted - peer.stake
    mapPeer := l.mapPeer.delete publicKey
    mapHttp := l.mapHttp.delete peer.http
    mapUdp := l.mapUdp.delete peer.udp
    dbState := l.dbState.del (statePeerIdent publicKey) }

/-- Who is a peer once one has joined, or left. -/
theorem hasPeer_join (l : Ledger) (http udp publicKey pk : Text) :
    (l.join http udp publicKey).hasPeer pk = (decide (pk = publicKey) || l.hasPeer pk) :=
  OrdMap.has_set _ _ _ _

theorem hasPeer_leave (l : Ledger) (publicKey pk : Text) (peer : Peer) :
    (l.leave publicKey peer).hasPeer pk = (!decide (pk = publicKey) && l.hasPeer pk) :=
  OrdMap.has_delete _ _ _

/-- The peer whose stake changes is one already. -/
theorem hasPeer_effect {l : Ledger} {origin publicKey ident : Text} {stake : Int} {peer : Peer}
    (hpeer : l.mapPeer.get? publicKey = some peer) (pk : Text) :
    (l.effect origin publicKey ident stake peer).hasPeer pk = l.hasPeer pk := by
  have hset : (l.effect origin publicKey ident stake peer).hasPeer pk
      = (decide (pk = publicKey) || l.hasPeer pk) := OrdMap.has_set _ _ _ _
  rw [hset]
  by_cases heq : pk = publicKey
  · rw [heq, hasPeer, OrdMap.has, hpeer]
    exact Bool.or_true _
  · rw [decide_eq_false heq, Bool.false_or]

/-- The ledger with an entry of its store written. -/
def write (l : Ledger) (key value : Text) : Ledger := { l with dbState := l.dbState.put key value }

/-- The command is passed over. -/
def PassedOver (l : Ledger) (origin : Text) : CommandBody → Prop
  | .addPeer _ _ publicKey => l.hasPeer publicKey = true
  | .removePeer publicKey => l.mapPeer.get? publicKey = none
  | .modifyStake publicKey ident stake => ∀ peer, ¬ l.TakesEffect origin publicKey ident stake peer
  | .data _ _ => False
  | .decision ns _ _ => l.isDecisionTaken ns = false

/-- **Everything a command can do** to a ledger, by the kind of the command. -/
inductive Change (l : Ledger) (origin : Text) : CommandBody → Ledger → Prop where
  | none {body : CommandBody} (h : l.PassedOver origin body) : Change l origin body l
  | join {http udp publicKey : Text} (h : l.hasPeer publicKey = false) :
      Change l origin (.addPeer http udp publicKey) (l.join http udp publicKey)
  | leave {publicKey : Text} {peer : Peer} (h : l.mapPeer.get? publicKey = some peer) :
      Change l origin (.removePeer publicKey) (l.leave publicKey peer)
  | tally {publicKey ident : Text} {stake : Int}
      (h : ∀ peer, ¬ l.TakesEffect origin publicKey ident stake peer) :
      Change l origin (.modifyStake publicKey ident stake) (l.tallied origin publicKey ident stake)
  | effect {publicKey ident : Text} {stake : Int} {peer : Peer}
      (h : l.TakesEffect origin publicKey ident stake peer) :
      Change l origin (.modifyStake publicKey ident stake)
        (l.effect origin publicKey ident stake peer)
  | data {ns d : Text} : Change l origin (.data ns d) (l.write (ns ++ ':' :: origin) d)
  | decision {ns d : Text} {h : Int} (htaken : l.isDecisionTaken ns = true) :
      Change l origin (.decision ns h d) (l.write ns (decisionText h d))

theorem change_apply (l : Ledger) (oc : Text × Command) :
    Change l oc.1 oc.2.body (l.apply oc) := by
  obtain ⟨origin, seq, body, keys⟩ := oc
  cases body with
  | addPeer http udp publicKey =>
      show Change l origin _ (l.addPeer http udp publicKey)
      unfold addPeer
      split
      next hhas => exact .none hhas
      next hhas => exact .join (Bool.eq_false_iff.mpr hhas)
  | removePeer publicKey =>
      show Change l origin _ (l.removePeer publicKey)
      unfold removePeer
      split
      next hnone => exact .none hnone
      next hpeer => exact .leave hpeer
  | modifyStake publicKey ident stake =>
      show Change l origin _ (l.modifyStake origin publicKey ident stake).1
      rcases l.modifyStake_cases origin publicKey ident stake with
        ⟨hnot, h⟩ | ⟨hnot, -, -, h⟩ | ⟨peer, heffect, h⟩
      · rw [h]
        exact .none hnot
      · rw [h]
        exact .tally hnot
      · rw [h]
        exact .effect heffect
  -- `data` has no guard: it always writes.
  | data ns d => exact .data
  | decision ns h d =>
      show Change l origin _ (l.processCommand origin ⟨seq, .decision ns h d, keys⟩).1
      unfold processCommand
      dsimp only
      split
      next htaken => exact .decision htaken
      next htaken => exact .none (Bool.eq_false_iff.mpr htaken)

/-- **What every command keeps, the transactions of a block keep.** -/
theorem applyTx_induction {P : Ledger → Prop} (h : ∀ l oc, P l → P (l.apply oc)) {l : Ledger}
    (hl : P l) (tx : List TransactionStruct) : P (l.applyTx tx) := by
  unfold applyTx
  induction commandsOf tx generalizing l with
  | nil => exact hl
  | cons oc cs ih => exact ih (h l oc hl)

/-- Only stake proposals touch the tallies. -/
theorem mapModifyStake_apply {l : Ledger} {oc : Text × Command}
    (h : ∀ publicKey ident stake, oc.2.body ≠ .modifyStake publicKey ident stake) :
    (l.apply oc).mapModifyStake = l.mapModifyStake := by
  have hchange := l.change_apply oc
  generalize l.apply oc = l', oc.2.body = body at hchange h ⊢
  cases hchange with
  | none _ => rfl
  | join _ => rfl
  | leave _ => rfl
  | tally _ => exact absurd rfl (h _ _ _)
  | effect _ => exact absurd rfl (h _ _ _)
  | data => rfl
  | decision _ => rfl

/-- Decisions are never added. -/
theorem arrayTakenDecision_apply (l : Ledger) (oc : Text × Command) :
    (l.apply oc).arrayTakenDecision = l.arrayTakenDecision := by
  have hchange := l.change_apply oc
  generalize l.apply oc = l', oc.2.body = body at hchange ⊢
  cases hchange <;> rfl

theorem arrayTakenDecision_applyTx (l : Ledger) (tx : List TransactionStruct) :
    (l.applyTx tx).arrayTakenDecision = l.arrayTakenDecision :=
  applyTx_induction (P := fun l' => l'.arrayTakenDecision = l.arrayTakenDecision)
    (fun l' oc h => (arrayTakenDecision_apply l' oc).trans h) rfl tx

end Ledger

end Divachain
