/-
  Divachain.Chain.Addresses — the address maps beside the peer table.

  `mapHttp` and `mapUdp` lead from an address back to the peer that has it;
  `getPublicKeyByUdp` decides whose datagrams are accepted.  `addPeer` looks
  at the public key only, so a new peer can take the address of another: the
  entry is overwritten then, and the next `removePeer` of either takes it away.

  Where no peer joins with an address that is in use, both maps are exact.
-/
import Divachain.Chain.Authorisation
import Divachain.Lib.InverseMap

namespace Divachain

open DataKit Ledger

/-! ## §1. Reads. -/

def Ledger.getPublicKeyByUdp (l : Ledger) (udp : Text) : Text := (l.mapUdp.get? udp).getD []

def Ledger.hasNetworkHttp (l : Ledger) (http : Text) : Bool := l.mapHttp.has http

/-! ## §2. The invariant. -/

/-- Every peer stands under its own key. -/
def Keyed (l : Ledger) : Prop := ∀ pk peer, l.mapPeer.get? pk = some peer → peer.publicKey = pk

namespace Keyed

theorem fresh : Keyed Ledger.fresh := fun _ _ h => nomatch h

theorem congr {l l' : Ledger} (h : Keyed l) (hpeer : l'.mapPeer = l.mapPeer) : Keyed l' := by
  unfold Keyed
  rw [hpeer]
  exact h

/-- A peer is written under its own key. -/
theorem set {l l' : Ledger} (h : Keyed l) (peer : Peer)
    (hpeer : l'.mapPeer = l.mapPeer.set peer.publicKey peer) : Keyed l' := by
  intro pk other hother
  rw [hpeer, OrdMap.get?_set] at hother
  split at hother
  next heq =>
    obtain rfl := Option.some.inj hother
    exact heq.symm
  next => exact h pk other hother

theorem leave {l : Ledger} (h : Keyed l) (publicKey : Text) (peer : Peer) :
    Keyed (l.leave publicKey peer) := by
  intro pk other hother
  change (l.mapPeer.delete publicKey).get? pk = some other at hother
  rw [OrdMap.get?_delete] at hother
  split at hother
  · cases hother
  · exact h pk other hother

/-- A new stake leaves the key alone. -/
theorem effect {l : Ledger} (h : Keyed l) {origin publicKey ident : Text} {stake : Int}
    {peer : Peer} (hpeer : l.mapPeer.get? publicKey = some peer) :
    Keyed (l.effect origin publicKey ident stake peer) := by
  have hkey : peer.publicKey = publicKey := h publicKey peer hpeer
  exact h.set { peer with stake := peer.stake + Ledger.clampStake peer stake }
    (congrArg (fun k => l.mapPeer.set k _) hkey.symm)

/-- **Every command keeps the keys.** -/
theorem apply {l : Ledger} (h : Keyed l) (oc : Text × Command) : Keyed (l.apply oc) := by
  have hchange := l.change_apply oc
  generalize l.apply oc = l', oc.2.body = body at hchange ⊢
  cases hchange with
  | none _ => exact h
  | @join http udp publicKey _ => exact h.set ⟨publicKey, http, udp, 1⟩ rfl
  | leave _ => exact h.leave _ _
  | tally _ => exact h.congr rfl
  | effect heffect => exact h.effect heffect.peer_eq
  | data => exact h.congr rfl
  | decision _ => exact h.congr rfl

theorem applyBlocks {l : Ledger} (h : Keyed l) (bs : List BlockStruct) :
    Keyed (l.applyBlocks bs) := by
  unfold Ledger.applyBlocks
  induction bs generalizing l with
  | nil => exact h
  | cons b bs ih =>
      exact ih (Ledger.applyTx_induction (P := Keyed) (fun _ oc hl => hl.apply oc) h b.tx)

end Keyed

/-- **The address maps are exact**, and every peer stands under its own key. -/
structure Addressed (l : Ledger) : Prop where
  keyed : ∀ pk peer, l.mapPeer.get? pk = some peer → peer.publicKey = pk
  http : OrdMap.Inverse Peer.http l.mapPeer l.mapHttp
  udp : OrdMap.Inverse Peer.udp l.mapPeer l.mapUdp

/-- The command lets a new peer join with an address that another peer has. -/
def SharesAddress (l : Ledger) (c : Command) : Prop :=
  match c.body with
  | .addPeer http udp publicKey =>
      l.hasPeer publicKey = false
        ∧ ∃ peer ∈ l.mapPeer.values, peer.http = http ∨ peer.udp = udp
  | _ => False

instance (l : Ledger) : ∀ c : Command, Decidable (SharesAddress l c)
  | ⟨_, .addPeer .., _⟩ => inferInstanceAs (Decidable (_ ∧ _))
  | ⟨_, .removePeer _, _⟩ => isFalse id
  | ⟨_, .modifyStake .., _⟩ => isFalse id
  | ⟨_, .data .., _⟩ => isFalse id
  | ⟨_, .decision .., _⟩ => isFalse id

namespace Addressed

theorem fresh : Addressed Ledger.fresh :=
  ⟨fun _ _ h => (nomatch h), OrdMap.inverse_empty, OrdMap.inverse_empty⟩

/-- Only the peers and the two maps matter. -/
theorem congr {l l' : Ledger} (hl : Addressed l) (hpeer : l'.mapPeer = l.mapPeer)
    (hhttp : l'.mapHttp = l.mapHttp) (hudp : l'.mapUdp = l.mapUdp) : Addressed l' := by
  refine ⟨?_, ?_, ?_⟩
  · rw [hpeer]
    exact hl.keyed
  · rw [hpeer, hhttp]
    exact hl.http
  · rw [hpeer, hudp]
    exact hl.udp

theorem join {l : Ledger} (hl : Addressed l) {http udp publicKey : Text}
    (hnew : l.hasPeer publicKey = false)
    (hfree : ∀ peer ∈ l.mapPeer.values, peer.http ≠ http ∧ peer.udp ≠ udp) :
    Addressed (l.join http udp publicKey) := by
  have hnone : l.mapPeer.get? publicKey = none := (OrdMap.has_eq_false_iff _ _).mp hnew
  have hothers : ∀ pk peer, l.mapPeer.get? pk = some peer → peer.http ≠ http ∧ peer.udp ≠ udp :=
    fun _ peer hpeer => hfree peer (OrdMap.mem_values_of_get? hpeer)
  refine ⟨Keyed.set hl.keyed ⟨publicKey, http, udp, 1⟩ rfl, ?_, ?_⟩
  · exact hl.http.insert (v := ⟨publicKey, http, udp, 1⟩) hnone
      fun pk peer hpeer => (hothers pk peer hpeer).1
  · exact hl.udp.insert (v := ⟨publicKey, http, udp, 1⟩) hnone
      fun pk peer hpeer => (hothers pk peer hpeer).2

theorem leave {l : Ledger} (hl : Addressed l) {publicKey : Text} {peer : Peer}
    (hpeer : l.mapPeer.get? publicKey = some peer) : Addressed (l.leave publicKey peer) := by
  exact ⟨Keyed.leave hl.keyed publicKey peer, hl.http.delete hpeer, hl.udp.delete hpeer⟩

/-- A new stake leaves key and addresses alone. -/
theorem effect {l : Ledger} (hl : Addressed l) {origin publicKey ident : Text} {stake : Int}
    {peer : Peer} (hpeer : l.mapPeer.get? publicKey = some peer) :
    Addressed (l.effect origin publicKey ident stake peer) :=
  ⟨Keyed.effect hl.keyed hpeer, hl.http.replace hpeer rfl, hl.udp.replace hpeer rfl⟩

/-- **Every command keeps the maps exact**, unless it shares an address. -/
theorem apply {l : Ledger} (hl : Addressed l) {origin : Text} {c : Command}
    (hfree : ¬ SharesAddress l c) : Addressed (l.apply (origin, c)) := by
  have hchange := l.change_apply (origin, c)
  unfold SharesAddress at hfree
  generalize l.apply (origin, c) = l' at hchange ⊢
  dsimp only at hchange
  generalize c.body = body at hchange hfree
  cases hchange with
  | none _ => exact hl
  | join hnew =>
      -- The only command that can break the inverse: both indices are set under the
      -- addresses of the new peer, which no peer may hold already.
      refine hl.join hnew ?_
      intro peer hpeer
      refine ⟨?_, ?_⟩
      · intro heq
        exact hfree ⟨hnew, peer, hpeer, Or.inl heq⟩
      · intro heq
        exact hfree ⟨hnew, peer, hpeer, Or.inr heq⟩
  | leave hpeer => exact hl.leave hpeer
  | tally _ => exact hl.congr rfl rfl rfl
  | effect heffect => exact hl.effect heffect.peer_eq
  | data => exact hl.congr rfl rfl rfl
  | decision _ => exact hl.congr rfl rfl rfl

end Addressed

/-- **A command that shares an address breaks one of the maps.** -/
theorem not_addressed_of_sharesAddress {l : Ledger} {origin : Text} {c : Command}
    (hshare : SharesAddress l c) : ¬ Addressed (l.apply (origin, c)) := by
  obtain ⟨seq, body, keys⟩ := c
  cases body with
  | addPeer http udp publicKey =>
      obtain ⟨hnew, peer, hpeer, haddress⟩ := hshare
      obtain ⟨⟨pk, peer'⟩, hentry, heq⟩ := List.mem_map.mp hpeer
      obtain rfl : peer' = peer := heq
      have hget : l.mapPeer.get? pk = some peer' := (OrdMap.get?_eq_some_iff _ _ _).mpr hentry
      -- The holder of the address is another peer, since the added key is new.
      have hne : pk ≠ publicKey := by
        intro hpk
        have hnone := (OrdMap.has_eq_false_iff _ _).mp hnew
        rw [← hpk, hget] at hnone
        exact nomatch hnone
      show ¬ Addressed (l.addPeer http udp publicKey)
      have hadd : l.addPeer http udp publicKey = l.join http udp publicKey :=
        if_neg (Bool.not_eq_true _ ▸ (hnew : l.mapPeer.has publicKey = false))
      rw [hadd]
      intro hbroken
      -- After the join two peers have one address, and an index names only one of them.
      rcases haddress with hhttp | hudp
      · exact OrdMap.not_inverse_of_shared hne hget hhttp hbroken.http
      · exact OrdMap.not_inverse_of_shared hne hget hudp hbroken.udp
  | removePeer publicKey => exact absurd hshare id
  | modifyStake publicKey ident stake => exact absurd hshare id
  | data ns d => exact absurd hshare id
  | decision ns h d => exact absurd hshare id

/-! ## §3. Runs. -/

/-- No command of the history shares an address when it is applied. -/
def NoSharedAddress (cs : List (Text × Command)) : Prop :=
  ∀ n < cs.length, ∀ oc ∈ cs[n]?, ¬ SharesAddress (stateAt cs n) oc.2

instance (cs : List (Text × Command)) : Decidable (NoSharedAddress cs) :=
  inferInstanceAs (Decidable (∀ n < cs.length, ∀ oc ∈ cs[n]?, ¬ SharesAddress (stateAt cs n) oc.2))

theorem addressed_stateAt {cs : List (Text × Command)} (hcs : NoSharedAddress cs) :
    ∀ n, Addressed (stateAt cs n)
  | 0 => .fresh
  | n + 1 => by
      have ih := addressed_stateAt hcs n
      cases hn : cs[n]? with
      | none =>
          have hlen : cs.length ≤ n := List.getElem?_eq_none_iff.mp hn
          have hsame : stateAt cs (n + 1) = stateAt cs n := by
            rw [stateAt, stateAt, List.take_of_length_le hlen, List.take_of_length_le (by omega)]
          rw [hsame]
          exact ih
      | some oc =>
          rw [stateAt_succ hn]
          exact ih.apply (hcs n (List.getElem?_eq_some_iff.mp hn).1 oc hn)

/-- **The maps are exact after every command, or some command shares an
address.** -/
theorem addressed_iff {cs : List (Text × Command)} :
    (∀ n, Addressed (stateAt cs n)) ↔ NoSharedAddress cs := by
  constructor
  · intro h n _ oc hn hshare
    have hafter := h (n + 1)
    rw [stateAt_succ hn] at hafter
    exact not_addressed_of_sharesAddress hshare hafter
  · exact addressed_stateAt

namespace Blockchain

/-- **The address maps are inverse to the peer table** in every run in which no
peer joins with an address in use. -/
theorem addresses_inverse {crypto : Crypto} {publicKey : Text} {genesis : BlockStruct}
    {c : Blockchain} (hg : 1 ≤ genesis.height) (h : Runs crypto publicKey genesis c)
    (hcs : NoSharedAddress (committedCommands c.chain)) :
    (∀ peer ∈ c.mapPeer.values, c.getPublicKeyByUdp peer.udp = peer.publicKey
        ∧ c.mapHttp.get? peer.http = some peer.publicKey)
      ∧ (∀ udp pk, c.mapUdp.get? udp = some pk →
          ∃ peer, c.mapPeer.get? pk = some peer ∧ peer.udp = udp)
      ∧ ∀ http pk, c.mapHttp.get? http = some pk →
          ∃ peer, c.mapPeer.get? pk = some peer ∧ peer.http = http := by
  -- The ledger of a run is the fold of its committed commands.
  have haddressed : Addressed c.toLedger := by
    rw [(h.stored hg).ledger, ← stateAt_committedCommands]
    exact addressed_stateAt hcs _
  refine ⟨?_, fun udp pk => (haddressed.udp udp pk).mp, fun http pk => (haddressed.http http pk).mp⟩
  intro peer hpeer
  obtain ⟨⟨pk, peer'⟩, hentry, heq⟩ := List.mem_map.mp hpeer
  obtain rfl : peer' = peer := heq
  have hget : c.mapPeer.get? pk = some peer' := (OrdMap.get?_eq_some_iff _ _ _).mpr hentry
  have hkey : peer'.publicKey = pk := haddressed.keyed pk peer' hget
  have hudp := (haddressed.udp peer'.udp pk).mpr ⟨peer', hget, rfl⟩
  refine ⟨?_, ?_⟩
  · rw [hkey, Ledger.getPublicKeyByUdp, hudp]
    rfl
  · rw [hkey]
    exact (haddressed.http peer'.http pk).mpr ⟨peer', hget, rfl⟩

/-- Three peers join, and one of them leaves. -/
theorem addresses_inverse_of_sample :
    (∀ peer ∈ (sampleLive 0 [0, 1]).mapPeer.values,
        (sampleLive 0 [0, 1]).getPublicKeyByUdp peer.udp = peer.publicKey
          ∧ (sampleLive 0 [0, 1]).mapHttp.get? peer.http = some peer.publicKey)
      ∧ (∀ udp pk, (sampleLive 0 [0, 1]).mapUdp.get? udp = some pk →
          ∃ peer, (sampleLive 0 [0, 1]).mapPeer.get? pk = some peer ∧ peer.udp = udp)
      ∧ ∀ http pk, (sampleLive 0 [0, 1]).mapHttp.get? http = some pk →
          ∃ peer, (sampleLive 0 [0, 1]).mapPeer.get? pk = some peer ∧ peer.http = http := by
  have hadd : (sampleStart 0).add sampleCrypto (sampleBlock [0, 1]) true
      = .added (sampleLive 0 [0, 1]) := by decide +kernel
  exact addresses_inverse (by decide) ((Runs.start start_sampleStart).add hadd) (by decide +kernel)

/-- Peer 0 lets another peer join, with the address for datagrams of peer 1. -/
def sharedTx : TransactionStruct :=
  { ident := ['t']
    origin := keyOf 0
    commands := [
      { seq := 1
        body := .addPeer (label 8 3) (label 9 1) (keyOf 3)
        keys := [.seq, .command, .http, .udp, .publicKey] }]
    sig := label 86 0
    keys := TransactionStruct.fields }

def sharedBlock : BlockStruct :=
  { sampleBlock [0, 1] with tx := [sharedTx] }

def sharedCrypto : Crypto :=
  tableCrypto [genesisText 3, hashText BLOCK_VERSION (label 43 0) [sharedTx] 2]
    [(keyOf 0, signedText 2 sharedTx.commands), (keyOf 0, label 43 1), (keyOf 1, label 43 1)]

def sharedChain : Blockchain :=
  match (sampleStart 0).add sharedCrypto sharedBlock true with
  | .added c => c
  | _ => fresh [] 0

/-- **A shared address**: the datagrams of peer 1 now count as those of peer 3. -/
theorem addresses_not_inverse :
    ¬ ∀ c, Runs sharedCrypto (keyOf 0) sampleGenesis c →
      ∀ peer ∈ c.mapPeer.values, c.getPublicKeyByUdp peer.udp = peer.publicKey := by
  intro hclaim
  have hadd : (sampleStart 0).add sharedCrypto sharedBlock true = .added sharedChain := by
    decide +kernel
  have hall := hclaim _ ((Runs.start start_sampleStart).add hadd)
  exact absurd hall (by decide +kernel)

end Blockchain

end Divachain
