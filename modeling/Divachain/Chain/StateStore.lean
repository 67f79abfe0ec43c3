/-
  Divachain.Chain.StateStore — what stands in the state database.

  Peers and data share one flat key space: a peer stands under `peer:` and its
  public key, data under its namespace, a colon and the origin.  A public key
  has no colon, so both kinds of keys can be cut at their last colon, and
  `peer` is no namespace: no two entries share a key.

  Main result: the store holds the stakes of the peers and the data last
  written, and nothing else.
-/
import Divachain.Chain.Authorisation

namespace Divachain

open DataKit Ledger

/-! ## §1. Keys. -/

/-- A key of the store: what stands before and behind the last colon. -/
def flatKey (ns origin : Text) : Text := ns ++ ':' :: origin

/-- `'peer'`. -/
def peerNamespace : Text := ['p', 'e', 'e', 'r']

theorem statePeerIdent_eq (publicKey : Text) :
    statePeerIdent publicKey = flatKey peerNamespace publicKey := rfl

theorem isBase64Url_of_isKeyText {t : Text} (h : isKeyText t = true) :
    ∀ c ∈ t, isBase64Url c = true := by
  unfold isKeyText matchesRun at h
  simp only [Bool.and_eq_true, List.all_eq_true] at h
  exact h.1.1

/-- **A flat key can be cut in one way only.** -/
theorem flatKey_injective {ns ns' origin origin' : Text} (ho : isKeyText origin = true)
    (ho' : isKeyText origin' = true) (h : flatKey ns origin = flatKey ns' origin') :
    ns = ns' ∧ origin = origin' := by
  have hstop : ∀ x : Text, StopsAt (fun c => isBase64Url c = true) (':' :: x) := by
    intro x
    show ¬ isBase64Url ':' = true
    decide
  -- read from the far end, the origin is a run of base64url characters
  have hshape : ∀ ns origin : Text,
      (flatKey ns origin).reverse = origin.reverse ++ ':' :: ns.reverse := by
    intro ns origin
    simp [flatKey]
  have hrev := congrArg List.reverse h
  rw [hshape, hshape] at hrev
  obtain ⟨horigin, hrest⟩ := span_unique (P := fun c => isBase64Url c = true)
    (fun c hc => isBase64Url_of_isKeyText ho c (List.mem_reverse.mp hc))
    (fun c hc => isBase64Url_of_isKeyText ho' c (List.mem_reverse.mp hc))
    (hstop _) (hstop _) hrev
  exact ⟨List.reverse_inj.mp (List.cons.inj hrest).2, List.reverse_inj.mp horigin⟩

theorem not_isNamespace_peer : isNamespace peerNamespace = false := by decide

/-! ## §2. The entries the store should have. -/

/-- What the command writes under the namespace, for this origin. -/
def dataOf (ns origin : Text) (oc : Text × Command) : Option Text :=
  match oc.2.body with
  | .data ns' d => if ns' = ns ∧ oc.1 = origin then some d else none
  | _ => none

/-- The data of the last such command. -/
def lastData (cs : List (Text × Command)) (ns origin : Text) : Option Text :=
  (cs.filterMap (dataOf ns origin)).getLast?

theorem lastData_concat (cs : List (Text × Command)) (oc : Text × Command) (ns origin : Text) :
    lastData (cs ++ [oc]) ns origin = (dataOf ns origin oc).or (lastData cs ns origin) := by
  unfold lastData
  rw [List.filterMap_append, List.filterMap_cons]
  cases dataOf ns origin oc with
  | none => rw [List.filterMap_nil, List.append_nil, Option.none_or]
  | some d => rw [List.filterMap_nil, List.getLast?_concat, Option.some_or]

/-- The entry is the stake of a peer. -/
def PeerEntry (l : Ledger) (key value : Text) : Prop :=
  ∃ pk peer, l.mapPeer.get? pk = some peer ∧ key = statePeerIdent pk ∧ value = intText peer.stake

/-- The entry is what an origin has written last in a namespace. -/
def DataEntry (cs : List (Text × Command)) (key value : Text) : Prop :=
  ∃ ns origin, key = flatKey ns origin ∧ lastData cs ns origin = some value

/-- **The store is exactly the chain's view**: stakes and data, and nothing else. -/
def ExactState (l : Ledger) (cs : List (Text × Command)) : Prop :=
  l.dbState.Holds fun key value => PeerEntry l key value ∨ DataEntry cs key value

/-- What the schemas say about a command and its origin. -/
def WellTyped (oc : Text × Command) : Prop := isKeyText oc.1 = true ∧ oc.2.body.valid = true

/-- The peers stand under public keys. -/
def KeyedPeers (l : Ledger) : Prop := ∀ pk ∈ l.mapPeer.keys, isKeyText pk = true

theorem mem_keys_of_get? {l : Ledger} {pk : Text} {peer : Peer}
    (h : l.mapPeer.get? pk = some peer) : pk ∈ l.mapPeer.keys := by
  rw [← OrdMap.has_iff, OrdMap.has, h]
  rfl

theorem keyedPeers_apply {l : Ledger} (hl : KeyedPeers l) {oc : Text × Command}
    (hoc : WellTyped oc) : KeyedPeers (l.apply oc) := by
  -- a key of the new table is an old one or the one of a valid command
  have hset : ∀ (m : OrdMap Text Peer) (k : Text) (v : Peer), m = l.mapPeer → isKeyText k = true →
      ∀ pk ∈ (m.set k v).keys, isKeyText pk = true := by
    rintro m k v rfl hk pk hpk
    obtain ⟨e, he, rfl⟩ := List.mem_map.mp hpk
    rcases (OrdMap.mem_entries_set _ _ _ _).mp he with rfl | ⟨-, hmem⟩
    · exact hk
    · exact hl e.1 (List.mem_map_of_mem hmem)
  have hvalid := hoc.2
  have hchange := l.change_apply oc
  generalize l.apply oc = l', oc.2.body = body at hchange hvalid ⊢
  cases hchange with
  | none _ => exact hl
  | join _ =>
      refine hset _ _ _ rfl ?_
      simp only [CommandBody.valid, Bool.and_eq_true] at hvalid
      exact hvalid.2
  | leave _ =>
      intro pk hpk
      obtain ⟨e, he, rfl⟩ := List.mem_map.mp hpk
      exact hl e.1 (List.mem_map_of_mem ((OrdMap.mem_entries_delete _ _ _).mp he).2)
  | tally _ => exact hl
  | effect heffect => exact hset _ _ _ rfl (hl _ (mem_keys_of_get? heffect.peer_eq))
  | data => exact hl
  | decision _ => exact hl

/-- Data has been written by a valid command. -/
theorem valid_of_lastData {cs : List (Text × Command)} (hcs : ∀ oc ∈ cs, WellTyped oc)
    {ns origin value : Text} (h : lastData cs ns origin = some value) :
    isNamespace ns = true ∧ isKeyText origin = true := by
  obtain ⟨oc, hmem, hdata⟩ := List.mem_filterMap.mp (List.mem_of_getLast? h)
  obtain ⟨hkey, hvalid⟩ := hcs oc hmem
  obtain ⟨origin', seq, body, keys⟩ := oc
  cases body with
  | data ns' d =>
      simp only [dataOf] at hdata
      split at hdata
      next heq =>
        obtain ⟨rfl, rfl⟩ := heq
        simp only [CommandBody.valid, Bool.and_eq_true] at hvalid
        exact ⟨hvalid.1, hkey⟩
      next => exact nomatch hdata
  | addPeer http udp publicKey => exact nomatch hdata
  | removePeer publicKey => exact nomatch hdata
  | modifyStake publicKey ident stake => exact nomatch hdata
  | decision ns' h' d => exact nomatch hdata

/-- No namespace is the one of the peers. -/
theorem flatKey_ne_statePeerIdent {ns origin pk : Text} (hns : isNamespace ns = true)
    (horigin : isKeyText origin = true) (hpk : isKeyText pk = true) :
    flatKey ns origin ≠ statePeerIdent pk := by
  intro heq
  rw [statePeerIdent_eq] at heq
  obtain ⟨rfl, -⟩ := flatKey_injective horigin hpk heq
  rw [not_isNamespace_peer] at hns
  exact nomatch hns

/-- **No data stands under the key of a peer.** -/
theorem not_dataEntry_peer {cs : List (Text × Command)} (hcs : ∀ oc ∈ cs, WellTyped oc)
    {pk : Text} (hpk : isKeyText pk = true) (value : Text) :
    ¬ DataEntry cs (statePeerIdent pk) value := by
  rintro ⟨ns, origin, hkey, hdata⟩
  obtain ⟨hns, horigin⟩ := valid_of_lastData hcs hdata
  exact flatKey_ne_statePeerIdent hns horigin hpk hkey.symm

theorem statePeerIdent_injective {pk pk' : Text}
    (h : statePeerIdent pk = statePeerIdent pk') : pk = pk' :=
  List.append_cancel_left h

/-! ## §3. One command. -/

/-- Only a data command writes data. -/
theorem dataEntry_concat_of_ne (cs : List (Text × Command)) (oc : Text × Command)
    (h : ∀ ns d, oc.2.body ≠ .data ns d) (key value : Text) :
    DataEntry (cs ++ [oc]) key value ↔ DataEntry cs key value := by
  have hnone : ∀ ns origin, dataOf ns origin oc = none := by
    intro ns origin
    unfold dataOf
    split
    next heq => exact absurd heq (h _ _)
    · rfl
  unfold DataEntry
  simp only [lastData_concat, hnone, Option.none_or]

/-- No decision is ever taken. -/
theorem not_isDecisionTaken {l : Ledger} (hdec : l.arrayTakenDecision = []) (ns : Text) :
    ¬ l.isDecisionTaken ns = true := by
  rw [Ledger.isDecisionTaken, hdec]
  exact Bool.false_ne_true

/-- The stake of one peer is written. -/
theorem ExactState.setPeer {l l' : Ledger} {cs cs' : List (Text × Command)} {pk : Text} {peer : Peer}
    (h : ExactState l cs) (hpk : isKeyText pk = true) (hcs : ∀ oc ∈ cs, WellTyped oc)
    (hdata : ∀ key value, DataEntry cs' key value ↔ DataEntry cs key value)
    (hpeer : l'.mapPeer = l.mapPeer.set pk peer)
    (hdb : l'.dbState = l.dbState.put (statePeerIdent pk) (intText peer.stake)) :
    ExactState l' cs' := by
  -- The peers agree with the store off the key of `pk`, and on it after the write.
  have hentry : ∀ key value, PeerEntry l' key value ↔
      (key = statePeerIdent pk ∧ value = intText peer.stake)
        ∨ (key ≠ statePeerIdent pk ∧ PeerEntry l key value) := by
    intro key value
    unfold PeerEntry
    rw [hpeer]
    constructor
    · rintro ⟨pk', peer', hget, rfl, rfl⟩
      rw [OrdMap.get?_set] at hget
      split at hget
      next heq =>
        obtain rfl := Option.some.inj hget
        exact Or.inl ⟨congrArg statePeerIdent heq, rfl⟩
      next hne =>
        exact Or.inr ⟨fun heq => hne (statePeerIdent_injective heq), pk', peer', hget, rfl, rfl⟩
    · rintro (⟨rfl, rfl⟩ | ⟨hne, pk', peer', hget, rfl, rfl⟩)
      · exact ⟨pk, peer, OrdMap.get?_set_self _ _ _, rfl, rfl⟩
      · refine ⟨pk', peer', ?_, rfl, rfl⟩
        rw [OrdMap.get?_set_ne]
        · exact hget
        · exact fun heq => hne (congrArg statePeerIdent heq)
  unfold ExactState
  rw [hdb]
  refine h.put ?_ ?_
  · intro w
    rw [hentry, hdata]
    -- No data entry lies under a peer key: what stands before its colon is no namespace.
    have hnone := not_dataEntry_peer hcs hpk w
    simp [hnone]
  · intro k w hk
    rw [hentry, hdata]
    simp [hk]

/-- A peer leaves. -/
theorem ExactState.deletePeer {l l' : Ledger} {cs cs' : List (Text × Command)} {pk : Text}
    (h : ExactState l cs) (hpk : isKeyText pk = true) (hcs : ∀ oc ∈ cs, WellTyped oc)
    (hdata : ∀ key value, DataEntry cs' key value ↔ DataEntry cs key value)
    (hpeer : l'.mapPeer = l.mapPeer.delete pk)
    (hdb : l'.dbState = l.dbState.del (statePeerIdent pk)) : ExactState l' cs' := by
  have hentry : ∀ key value, PeerEntry l' key value ↔
      key ≠ statePeerIdent pk ∧ PeerEntry l key value := by
    intro key value
    unfold PeerEntry
    rw [hpeer]
    constructor
    · rintro ⟨pk', peer', hget, rfl, rfl⟩
      rw [OrdMap.get?_delete] at hget
      split at hget
      · cases hget
      next hne =>
        exact ⟨fun heq => hne (statePeerIdent_injective heq), pk', peer', hget, rfl, rfl⟩
    · rintro ⟨hne, pk', peer', hget, rfl, rfl⟩
      refine ⟨pk', peer', ?_, rfl, rfl⟩
      rw [OrdMap.get?_delete, if_neg]
      · exact hget
      · exact fun heq => hne (congrArg statePeerIdent heq)
  unfold ExactState
  rw [hdb]
  refine h.del ?_ ?_
  · intro w
    rw [hentry, hdata]
    -- The key holds nothing afterwards, so no data entry may lie under it either.
    have hnone := not_dataEntry_peer hcs hpk w
    simp [hnone]
  · intro k w hk
    rw [hentry, hdata]
    simp [hk]

/-- Data is written. -/
theorem ExactState.putData {l l' : Ledger} {cs : List (Text × Command)} {oc : Text × Command}
    {ns d : Text} (h : ExactState l cs) (hl : KeyedPeers l) (hcs : ∀ oc ∈ cs, WellTyped oc)
    (hoc : WellTyped oc) (hbody : oc.2.body = .data ns d) (hpeer : l'.mapPeer = l.mapPeer)
    (hdb : l'.dbState = l.dbState.put (flatKey ns oc.1) d) : ExactState l' (cs ++ [oc]) := by
  have hvalid : isNamespace ns = true := by
    have hok := hoc.2
    rw [hbody] at hok
    simp only [CommandBody.valid, Bool.and_eq_true] at hok
    exact hok.1
  have hentry : ∀ key value, PeerEntry l' key value ↔ PeerEntry l key value := by
    intro key value
    unfold PeerEntry
    rw [hpeer]
  have hwrite : ∀ ns' origin', dataOf ns' origin' oc
      = if ns = ns' ∧ oc.1 = origin' then some d else none := by
    intro ns' origin'
    rw [dataOf, hbody]
  unfold ExactState
  rw [hdb]
  refine h.put ?_ ?_
  · intro w
    rw [hentry]
    have hnone : ¬ PeerEntry l (flatKey ns oc.1) w := by
      rintro ⟨pk, peer, hget, hkey, -⟩
      exact flatKey_ne_statePeerIdent hvalid hoc.1 (hl pk (mem_keys_of_get? hget)) hkey
    constructor
    -- The flat key determines namespace and origin, so the last write under it is this one.
    · rintro (hpeerEntry | ⟨ns', origin', hkey, hdata⟩)
      · exact absurd hpeerEntry hnone
      · rw [lastData_concat, hwrite] at hdata
        have horigin' : isKeyText origin' = true := by
          by_cases hsame : ns = ns' ∧ oc.1 = origin'
          · exact hsame.2 ▸ hoc.1
          · rw [if_neg hsame, Option.none_or] at hdata
            exact (valid_of_lastData hcs hdata).2
        rw [if_pos (flatKey_injective hoc.1 horigin' hkey), Option.some_or] at hdata
        exact (Option.some.inj hdata).symm
    · rintro rfl
      refine Or.inr ⟨ns, oc.1, rfl, ?_⟩
      rw [lastData_concat, hwrite, if_pos ⟨rfl, rfl⟩, Option.some_or]
  · intro k w hk
    rw [hentry]
    refine or_congr Iff.rfl ?_
    -- Off the written key the last data is that of the earlier commands.
    have hother : ∀ ns' origin', k = flatKey ns' origin' → dataOf ns' origin' oc = none := by
      rintro ns' origin' rfl
      rw [hwrite, if_neg]
      rintro ⟨rfl, rfl⟩
      exact hk rfl
    constructor
    · rintro ⟨ns', origin', hkey, hdata⟩
      rw [lastData_concat, hother ns' origin' hkey, Option.none_or] at hdata
      exact ⟨ns', origin', hkey, hdata⟩
    · rintro ⟨ns', origin', hkey, hdata⟩
      refine ⟨ns', origin', hkey, ?_⟩
      rw [lastData_concat, hother ns' origin' hkey, Option.none_or]
      exact hdata

/-- Neither the peers nor the store change. -/
theorem ExactState.same {l l' : Ledger} {cs cs' : List (Text × Command)} (h : ExactState l cs)
    (hdata : ∀ key value, DataEntry cs' key value ↔ DataEntry cs key value)
    (hpeer : l'.mapPeer = l.mapPeer) (hdb : l'.dbState = l.dbState) : ExactState l' cs' := by
  unfold ExactState
  rw [hdb]
  refine h.congr fun key value => ?_
  rw [hdata]
  unfold PeerEntry
  rw [hpeer]

/-- **Every command keeps the store exact.** -/
theorem ExactState.apply {l : Ledger} {cs : List (Text × Command)} (h : ExactState l cs)
    (hl : KeyedPeers l) (hdec : l.arrayTakenDecision = []) (hcs : ∀ oc ∈ cs, WellTyped oc)
    {oc : Text × Command} (hoc : WellTyped oc) : ExactState (l.apply oc) (cs ++ [oc]) := by
  have hvalid := hoc.2
  have hdata := dataEntry_concat_of_ne cs oc
  have hput : ∀ {l' : Ledger} {ns d : Text}, oc.2.body = .data ns d → l'.mapPeer = l.mapPeer →
      l'.dbState = l.dbState.put (flatKey ns oc.1) d → ExactState l' (cs ++ [oc]) :=
    h.putData hl hcs hoc
  have hchange := l.change_apply oc
  generalize l.apply oc = l', oc.2.body = body at hchange hvalid hdata hput ⊢
  cases hchange with
  -- A command that is passed over is no `data`, so the data entries stay.
  | none hpassed =>
      refine h.same (hdata ?_) rfl rfl
      rintro ns d rfl
      exact hpassed
  | join _ =>
      simp only [CommandBody.valid, Bool.and_eq_true] at hvalid
      exact h.setPeer hvalid.2 hcs (hdata fun _ _ h => nomatch h) rfl rfl
  | leave _ => exact h.deletePeer hvalid hcs (hdata fun _ _ h => nomatch h) rfl rfl
  | tally _ => exact h.same (hdata fun _ _ h => nomatch h) rfl rfl
  | effect heffect =>
      exact h.setPeer (hl _ (mem_keys_of_get? heffect.peer_eq)) hcs (hdata fun _ _ h => nomatch h)
        rfl rfl
  | data => exact hput rfl rfl rfl
  -- No decision is ever taken: the table of decisions stays empty in every run.
  | decision htaken => exact absurd htaken (not_isDecisionTaken hdec _)

/-! ## §4. What a command leaves alone. -/

/-- **Data belongs to its origin**: a command of another one does not touch it. -/
theorem get?_flatKey_apply {l : Ledger} (hl : KeyedPeers l) (hdec : l.arrayTakenDecision = [])
    {oc : Text × Command} (hoc : WellTyped oc) {ns origin : Text} (hns : isNamespace ns = true)
    (horigin : isKeyText origin = true) (hother : oc.1 ≠ origin) :
    (l.apply oc).dbState.get? (flatKey ns origin) = l.dbState.get? (flatKey ns origin) := by
  have hpeer : ∀ pk, isKeyText pk = true → flatKey ns origin ≠ statePeerIdent pk :=
    fun _ hpk => flatKey_ne_statePeerIdent hns horigin hpk
  obtain ⟨hkey, hvalid⟩ := hoc
  have hchange := l.change_apply oc
  generalize l.apply oc = l', oc.2.body = body at hchange hvalid ⊢
  cases hchange with
  | none _ => rfl
  | join _ =>
      simp only [CommandBody.valid, Bool.and_eq_true] at hvalid
      unfold join
      rw [Store.get?_put, if_neg (hpeer _ hvalid.2)]
  | leave _ =>
      unfold leave
      rw [Store.get?_del, if_neg (hpeer _ hvalid)]
  | tally _ => rfl
  | effect heffect =>
      unfold effect
      rw [Store.get?_put, if_neg (hpeer _ (hl _ (mem_keys_of_get? heffect.peer_eq)))]
  -- Another origin writes under another flat key.
  | @data ns' d =>
      show (l.dbState.put (flatKey ns' oc.1) d).get? _ = _
      rw [Store.get?_put, if_neg]
      exact fun heq => hother (flatKey_injective horigin hkey heq).2.symm
  | decision htaken => exact absurd htaken (not_isDecisionTaken hdec _)

/-- The command lets a peer join or leave or proposes a stake. -/
def TouchesPeers (c : Command) : Prop :=
  match c.body with
  | .addPeer .. | .removePeer .. | .modifyStake .. => True
  | .data .. | .decision .. => False

/-- **Peer entries change through the three peer commands only.** -/
theorem get?_statePeerIdent_apply {l : Ledger} (hdec : l.arrayTakenDecision = [])
    {oc : Text × Command} (hoc : WellTyped oc) {pk : Text} (hpk : isKeyText pk = true)
    (hother : ¬ TouchesPeers oc.2) :
    (l.apply oc).dbState.get? (statePeerIdent pk) = l.dbState.get? (statePeerIdent pk) := by
  obtain ⟨hkey, hvalid⟩ := hoc
  unfold TouchesPeers at hother
  have hchange := l.change_apply oc
  generalize l.apply oc = l', oc.2.body = body at hchange hvalid hother ⊢
  cases hchange with
  | none _ => rfl
  | join _ => exact absurd trivial hother
  | leave _ => exact absurd trivial hother
  | tally _ => exact absurd trivial hother
  | effect _ => exact absurd trivial hother
  | @data ns d =>
      simp only [CommandBody.valid, Bool.and_eq_true] at hvalid
      show (l.dbState.put (flatKey ns oc.1) d).get? _ = _
      rw [Store.get?_put, if_neg (flatKey_ne_statePeerIdent hvalid.1 hkey hpk).symm]
  | decision htaken => exact absurd htaken (not_isDecisionTaken hdec _)

/-! ## §5. Runs. -/

theorem arrayTakenDecision_stateAt (cs : List (Text × Command)) (n : Nat) :
    (stateAt cs n).arrayTakenDecision = [] := by
  unfold stateAt
  generalize hl : Ledger.fresh = l
  have hfresh : l.arrayTakenDecision = [] := hl ▸ rfl
  clear hl
  induction cs.take n generalizing l with
  | nil => exact hfresh
  | cons oc cs ih => exact ih (l.apply oc) ((arrayTakenDecision_apply l oc).trans hfresh)

/-- The store after every prefix of the history. -/
theorem exactState_stateAt {cs : List (Text × Command)} (hcs : ∀ oc ∈ cs, WellTyped oc) :
    ∀ n, ExactState (stateAt cs n) (cs.take n) ∧ KeyedPeers (stateAt cs n)
  | 0 => by
      refine ⟨Store.holds_empty ?_, fun pk hpk => (nomatch hpk)⟩
      rintro k v (⟨pk, peer, hget, -⟩ | ⟨ns, origin, -, hdata⟩)
      · exact nomatch hget
      · exact nomatch hdata
  | n + 1 => by
      obtain ⟨hexact, hkeyed⟩ := exactState_stateAt hcs n
      cases hn : cs[n]? with
      | none =>
          -- Past the end of the history the state stands still.
          have hlen : cs.length ≤ n := List.getElem?_eq_none_iff.mp hn
          rw [stateAt, List.take_of_length_le (by omega : cs.length ≤ n + 1),
            ← List.take_of_length_le hlen]
          exact ⟨hexact, hkeyed⟩
      | some oc =>
          have hoc : WellTyped oc := hcs oc (List.mem_of_getElem? hn)
          rw [stateAt_succ hn, List.take_add_one, hn]
          exact ⟨hexact.apply hkeyed (arrayTakenDecision_stateAt cs n)
            (fun oc hmem => hcs oc (List.mem_of_mem_take hmem)) hoc, keyedPeers_apply hkeyed hoc⟩

namespace Blockchain

/-- The transactions of a validated chain pass their schema. -/
theorem Validated.tx_valid {crypto : Crypto} {genesis : BlockStruct} (hg : genesis.valid = true)
    {bs : List BlockStruct} (h : Validated crypto genesis bs) :
    ∀ b ∈ bs, ∀ t ∈ b.tx, t.valid = true := by
  induction h with
  | genesis =>
      intro b hb t ht
      obtain rfl := List.mem_singleton.mp hb
      unfold BlockStruct.valid at hg
      simp only [Bool.and_eq_true, List.all_eq_true] at hg
      exact hg.1.1.2.1 t ht
  | snoc hbs hlast hheight hprev hvalid ih =>
      intro b hb t ht
      rcases List.mem_append.mp hb with hb | hb
      · exact ih b hb t ht
      · obtain rfl := List.mem_singleton.mp hb
        exact (validateTx_iff.mp ((validateBlock_true_iff.mp hvalid).1.txs t ht)).1

theorem wellTyped_committedCommands {bs : List BlockStruct}
    (h : ∀ b ∈ bs, ∀ t ∈ b.tx, t.valid = true) : ∀ oc ∈ committedCommands bs, WellTyped oc := by
  intro oc hoc
  obtain ⟨b, hb, hoc⟩ := List.mem_flatMap.mp hoc
  obtain ⟨t, ht, hoc⟩ := List.mem_flatMap.mp hoc
  obtain ⟨c, hc, rfl⟩ := List.mem_map.mp hoc
  have htx := h b hb t ht
  have hcommand := TransactionStruct.valid_commands htx hc
  unfold TransactionStruct.valid at htx
  unfold Command.valid at hcommand
  simp only [Bool.and_eq_true] at htx hcommand
  exact ⟨htx.1.1.1.2, hcommand.1.2⟩

theorem height_of_valid {b : BlockStruct} (h : b.valid = true) : 1 ≤ b.height := by
  unfold BlockStruct.valid at h
  simp only [Bool.and_eq_true, decide_eq_true_eq] at h
  exact h.1.2

/-- **The state store is exactly the chain's view**: in every state of every run
it has the stakes of the peers, the data last committed for each namespace and
origin, and nothing else; and no command of the chain has touched the data of
another origin, or a peer other than by the peer commands. -/
theorem state_store_exact {crypto : Crypto} {publicKey : Text} {genesis : BlockStruct}
    {c : Blockchain} (hg : genesis.valid = true) (h : Runs crypto publicKey genesis c) :
    (∀ key value, c.dbState.get? key = some value ↔
        (∃ pk peer, c.mapPeer.get? pk = some peer ∧ key = statePeerIdent pk
            ∧ value = intText peer.stake)
          ∨ ∃ ns origin, key = ns ++ ':' :: origin
            ∧ lastData (committedCommands c.chain) ns origin = some value)
      ∧ ∀ n origin cmd, (committedCommands c.chain)[n]? = some (origin, cmd) →
          (∀ ns origin', isNamespace ns = true → isKeyText origin' = true → origin ≠ origin' →
            (stateAt (committedCommands c.chain) (n + 1)).dbState.get? (ns ++ ':' :: origin')
              = (stateAt (committedCommands c.chain) n).dbState.get? (ns ++ ':' :: origin'))
          ∧ ∀ pk, isKeyText pk = true → ¬ TouchesPeers cmd →
            (stateAt (committedCommands c.chain) (n + 1)).dbState.get? (statePeerIdent pk)
              = (stateAt (committedCommands c.chain) n).dbState.get? (statePeerIdent pk) := by
  have hheight := height_of_valid hg
  have htyped : ∀ oc ∈ committedCommands c.chain, WellTyped oc :=
    wellTyped_committedCommands ((h.holds hheight).1.tx_valid hg)
  refine ⟨?_, ?_⟩
  · have hexact := (exactState_stateAt htyped (committedCommands c.chain).length).1
    rw [List.take_length, stateAt_committedCommands, ← (h.stored hheight).ledger] at hexact
    exact hexact
  · intro n origin cmd hn
    have hoc : WellTyped (origin, cmd) := htyped _ (List.mem_of_getElem? hn)
    have hdec := arrayTakenDecision_stateAt (committedCommands c.chain) n
    have hkeyed := (exactState_stateAt htyped n).2
    rw [stateAt_succ hn]
    refine ⟨?_, ?_⟩
    · intro ns origin' hns horigin' hother
      exact get?_flatKey_apply hkeyed hdec hoc hns horigin' hother
    · intro pk hpk hother
      exact get?_statePeerIdent_apply hdec hoc hpk hother

/-- Three peers, a stake proposal that does not take effect, and a peer that
leaves: the stake of peer 1 is in the store. -/
theorem state_store_of_sample :
    (sampleLive 0 [0, 1]).dbState.get? (statePeerIdent (keyOf 1)) = some (intText 1) := by
  have hadd : (sampleStart 0).add sampleCrypto (sampleBlock [0, 1]) true
      = .added (sampleLive 0 [0, 1]) := by decide +kernel
  have hstake : ((sampleLive 0 [0, 1]).mapPeer.get? (keyOf 1)).map Peer.stake = some 1 := by
    decide +kernel
  obtain ⟨peer, hpeer, hone⟩ := Option.map_eq_some_iff.mp hstake
  refine ((state_store_exact (by decide +kernel) ((Runs.start start_sampleStart).add hadd)).1
    _ _).mpr (Or.inl ⟨keyOf 1, peer, hpeer, rfl, ?_⟩)
  rw [hone]

end Blockchain

end Divachain
