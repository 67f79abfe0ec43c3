/-
  Divachain.Net.Authorship — nobody brings in a transaction for somebody else.

  Every event may hit every node of a `Party` at any time, with whatever it
  carries: messages may come from outside, and a sync answer from anybody.  The
  one thing the outside cannot do is to sign for a member (`Unforged`).  What a
  member signs are votes, messages, challenges and the transactions it has
  stacked, and no text is of two kinds.  So whatever a member commits under the
  key of another one has been stacked there, and no member is taken out of the
  table of peers by others.

  Main results:
    * `Authored.stacked` — a transaction that verifies for a member has been stacked;
    * `authored` — a committed transaction of a member has been stacked by it;
    * `evicted_by_itself` — a member that is no peer any more has asked for it;
    * `of_system` — nodes that hear from each other only are such a party.
-/
import Divachain.Net.Handled
import Divachain.Net.Conservation
import Divachain.Net.Agreement
import Divachain.Net.Separation
import Divachain.Chain.Removal

namespace Divachain

open DataKit

/-! ## §1. The invariant of a node. -/

/-- **All that a node holds is known to `K`**, where its own transactions come
from what it has accepted. -/
structure Node.Authored (K : Text → Text → Prop) (V : BlockStruct → Prop) (publicKey : Text)
    (n : Node) : Prop where
  publicKey : n.chain.publicKey = publicKey
  line : ∀ r ∈ n.line, r ∈ n.accepted
  keyed : ∀ r ∈ n.accepted, r.WellKeyed
  pooled : TxsIn K n.pooledTxs
  posted : ∀ m ∈ n.posted, TxsIn K m.data.txs
  sourced : Consensus.Sourced K V n.toConsensus

namespace Node

variable {crypto : Crypto} {K : Text → Text → Prop} {V : BlockStruct → Prop} {publicKey : Text}
  {n : Node}

theorem Authored.mono {K' : Text → Text → Prop} (h : n.Authored K V publicKey)
    (hK : ∀ origin sig, K origin sig → K' origin sig) : n.Authored K' V publicKey :=
  ⟨h.publicKey, h.line, h.keyed, h.pooled.mono hK, fun m hm => (h.posted m hm).mono hK,
    h.sourced.mono hK⟩

/-- The move of a turn takes in what comes with the event or is in the pool. -/
theorem txIn_of_from {turn : Turn} {e : Event} (hpool : TxsIn K n.pooledTxs) (hin : TxsIn K e.txs)
    {kind : Kind} (hfrom : kind.from n turn e) : kind.TxIn K := by
  cases kind with
  | propose pool =>
      obtain ⟨-, -, rfl⟩ := hfrom
      exact fun t ht => hpool t (List.mem_append_right _ ht)
  | accept b =>
      obtain ⟨m, rfl, hdata, -⟩ := hfrom
      intro t ht
      refine hin t ?_
      show t ∈ m.data.txs
      rw [hdata]
      exact ht
  | answer blocks =>
      obtain rfl := hfrom
      exact fun b hb t ht => hin t (List.mem_flatMap.mpr ⟨b, hb, ht⟩)
  | vote origin hash sig => trivial
  | confirm hash votes => trivial
  | drop => trivial
  | command oc => trivial
  | commit t => trivial
  | other => trivial

/-- **A turn keeps it so**, if `K` knows what comes in and what the node signs
for a record it has accepted. -/
theorem Authored.step (h : n.Authored K V publicKey) (hV : Consensus.Admits crypto V) {turn : Turn}
    {e : Event} (hin : TxsIn K e.txs)
    (hown : ∀ r ∈ (n.step crypto turn e).accepted, ∀ height,
      K publicKey (crypto.sign publicKey (signedText height r.commands))) :
    (n.step crypto turn e).Authored K V publicKey := by
  have hhandles : Handles crypto (fun t => t ∈ e.txs) n (n.step crypto turn e) :=
    handles_step n turn e
  obtain ⟨kind, hfrom, hmove⟩ : ∃ kind : Kind, kind.from n turn e ∧ Move crypto _ kind _ :=
    step_moves n turn e
  have hkeyed : ∀ r ∈ (n.step crypto turn e).accepted, r.WellKeyed := by
    obtain ⟨rs, haccepted, hrs⟩ := hhandles.accepted
    intro r hr
    rw [haccepted] at hr
    rcases List.mem_append.mp hr with hr | hr
    · exact h.keyed r hr
    · exact hrs r hr
  have hsigned : ∀ t, Own crypto n (n.step crypto turn e) t → K t.origin t.sig := by
    intro t ht
    obtain ⟨r, height, hr, horigin, hsig⟩ := ht
    have haccepted : r ∈ (n.step crypto turn e).accepted := by
      rcases hr with hr | hr
      · exact hhandles.accepted_subset (h.line r hr)
      · exact hr
    rw [horigin, hsig, h.publicKey]
    exact hown r haccepted height
  refine ⟨hhandles.publicKey.trans h.publicKey, ?_, hkeyed, ?_, ?_,
    h.sourced.move hV hmove (txIn_of_from h.pooled hin hfrom)⟩
  · intro r hr
    rcases hhandles.line r hr with hr | hr
    · exact hhandles.accepted_subset (h.line r hr)
    · exact hr
  · intro t ht
    rcases hhandles.pooled t ht with ht | ht | ht
    · exact h.pooled t ht
    · exact hin t ht
    · exact hsigned t ht
  · intro m hm t ht
    rcases hhandles.posted m hm t ht with hm | ht'
    · exact h.posted m hm t ht
    · exact hsigned t ht'

end Node

/-! ## §2. The blocks a node starts with. -/

theorem Ledger.map_header_processState :
    ∀ (l : Ledger) (tx : List TransactionStruct),
      (l.processState tx).2.map TransactionStruct.header = tx.map TransactionStruct.header
  | _, [] => rfl
  | _, t :: tx => congrArg (t.header :: ·) (map_header_processState _ tx)

/-- A new instance has cached the genesis block, with its headers as they were. -/
theorem Blockchain.header_start {publicKey : Text} {maxBlocks : Nat} {answers : Nat → Bool}
    {genesis : BlockStruct} {c : Blockchain}
    (h : (Blockchain.fresh publicKey maxBlocks).reset answers genesis = some c) :
    ∀ b ∈ c.mapBlocks.values,
      b.tx.map TransactionStruct.header = genesis.tx.map TransactionStruct.header := by
  have hreplay : ((Blockchain.fresh publicKey maxBlocks).clear.putBlock 1 genesis).rewind.replay
      answers [genesis] = some c := h
  unfold Blockchain.replay at hreplay
  dsimp only at hreplay
  split at hreplay
  next d hcache =>
    obtain rfl := Option.some.inj hreplay
    have hcached := Blockchain.updateCache_spec hcache
    intro b hb
    change b ∈ d.mapBlocks.values at hb
    rw [hcached.mapBlocks] at hb
    have hset : ∀ b ∈ (OrdMap.empty.set genesis.height { genesis with
        tx := (Ledger.fresh.processState genesis.tx).2 } : OrdMap Nat BlockStruct).values,
        b.tx.map TransactionStruct.header = genesis.tx.map TransactionStruct.header := by
      intro b hb
      rcases OrdMap.mem_values_set hb with rfl | hb
      · exact Ledger.map_header_processState _ _
      · exact nomatch hb
    unfold Blockchain.cacheBlock at hb
    dsimp only at hb
    split at hb
    · exact hset b (OrdMap.mem_values_delete hb)
    · exact hset b hb
  next => exact nomatch hreplay

/-! ## §3. Members among strangers. -/

/-- Several nodes; whoever else there is may send them anything. -/
abbrev Party (ι : Type) := ι → Node

namespace Party

section

variable {ι : Type} (crypto : Crypto) (packer : Packer) (key : ι → Text) (p : Party ι)

/-- A member with this key has stacked these commands. -/
def Stacked (origin : Text) (commands : List Command) : Prop :=
  ∃ i, key i = origin ∧ ∃ r ∈ (p i).accepted, r.commands = commands

/-- A text that a node may sign as something else than a transaction: a block hash, a
message or a challenge. -/
def SignedElse (d : Text) : Prop :=
  (∃ kind : SignedKind, kind ≠ .transaction ∧ SignedAs crypto packer kind d)
    ∨ ∃ isJoiningNetwork, Challenged isJoiningNetwork d

/-- **A member with this key has signed this text**: for a transaction that it has
stacked, or as something else. -/
def Signed (origin d : Text) : Prop :=
  (∃ i, key i = origin ∧ ∃ r ∈ (p i).accepted, ∃ height, d = signedText height r.commands)
    ∨ SignedElse crypto packer d

/-- **Nobody signs for a member**: where this signature under the key of a member
verifies for the text of a transaction, the member has signed that text. -/
def Unforged (origin sig : Text) : Prop :=
  (∃ i, key i = origin) → ∀ d, SignedAs crypto packer .transaction d →
    crypto.verifySignature origin sig d = true → Signed crypto packer key p origin d

/-- The transactions of members in the block verify at its height. -/
def Vouched (b : BlockStruct) : Prop :=
  ∀ t ∈ b.tx, (∃ i, key i = t.origin) →
    crypto.verifySignature t.origin t.sig (signedText b.height t.commands) = true
      ∧ t.valid = true

variable [DecidableEq ι]

/-- Node `i` takes a turn. -/
def turn (i : ι) (turn : Turn) (e : Node.Event) : Party ι :=
  Function.update p i ((p i).step crypto turn e)

/-- **The states the nodes can reach**, by turns that are `ok` for the node that
takes them, with any events whose transactions are not forged. -/
inductive Reaches (ok : Node → Turn → Node.Event → Prop) (p₀ : Party ι) : Party ι → Prop where
  | refl : Reaches ok p₀ p₀
  | turn {p : Party ι} (h : Reaches ok p₀ p) (i : ι) (turn : Turn) (e : Node.Event)
      (hin : TxsIn (Unforged crypto packer key p) e.txs) (hok : ok (p i) turn e) :
      Reaches ok p₀ (p.turn crypto i turn e)

end

variable {ι : Type} {crypto : Crypto} {packer : Packer} {key : ι → Text} {p : Party ι}

/-- **Nothing that is around under a member's key is forged.** -/
def Authored (crypto : Crypto) (packer : Packer) (key : ι → Text) (p : Party ι) : Prop :=
  ∀ i, (p i).Authored (Unforged crypto packer key p) (Vouched crypto key) (key i)

theorem admits_vouched : Consensus.Admits crypto (Vouched crypto key) := by
  intro c b haccepts t ht _
  obtain ⟨-, -, hwf, -⟩ := (Blockchain.accepts_iff crypto).mp haccepts
  obtain ⟨hvalid, -, hverify, -⟩ := validateTx_iff.mp (hwf.txs t ht)
  exact ⟨hverify, hvalid⟩

/-- The genesis block names no member as an origin. -/
theorem authored_start {genesis : BlockStruct} {maxBlocks : ι → Nat} {answers : ι → Nat → Bool}
    {chain : ι → Blockchain} (hgenesis : ∀ t ∈ genesis.tx, ∀ i, key i ≠ t.origin)
    (hstart : ∀ i, (Blockchain.fresh (key i) (maxBlocks i)).reset (answers i) genesis
      = some (chain i)) : Authored crypto packer key fun i => Node.start (chain i) := by
  have hin : TxsIn (Unforged crypto packer key fun i => Node.start (chain i)) genesis.tx := by
    intro t ht hmember
    obtain ⟨i, hi⟩ := hmember
    exact absurd hi (hgenesis t ht i)
  intro i
  refine ⟨(Blockchain.replay_spec (hstart i)).publicKey, fun _ h => (nomatch h),
    fun _ h => (nomatch h), fun _ h => (nomatch h), fun _ h => (nomatch h),
    Consensus.sourced_start ?_ ?_⟩
  · intro b hb
    have hstored : (chain i).dbBlockchain = Store.empty.put 1 genesis :=
      (Blockchain.replay_spec (hstart i)).dbBlockchain
    rw [hstored] at hb
    obtain rfl : b = genesis := List.mem_singleton.mp hb
    refine ⟨hin, ?_⟩
    intro t ht hmember
    obtain ⟨i, hi⟩ := hmember
    exact absurd hi (hgenesis t ht i)
  · intro b hb
    exact hin.of_header (Blockchain.header_start (hstart i) b hb)

/-- What a node signs for a record it has accepted is not forged. -/
theorem unforged_own (hsound : crypto.SignSound) {i : ι} {r : RecordStack}
    (hr : r ∈ (p i).accepted) (height : Nat) :
    Unforged crypto packer key p (key i) (crypto.sign (key i) (signedText height r.commands)) := by
  intro _ d _ hverify
  exact Or.inl ⟨i, rfl, r, hr, height, (hsound _ _ _ hverify).symm⟩

/-- Nothing else is signed that reads as a transaction. -/
theorem signedElse_ne (hhash : ∀ d, isKeyText (crypto.hash d) = true) (hstrict : packer.Strict)
    {d : Text} (hd : SignedElse crypto packer d) : ¬ SignedAs crypto packer .transaction d := by
  intro htransaction
  rcases hd with ⟨kind, hkind, hother⟩ | ⟨isJoiningNetwork, htoken⟩
  · exact signedAs_ne hhash hstrict hkind hother htransaction rfl
  · exact challenged_ne hhash hstrict htoken (by decide) htransaction rfl

/-- What a node signs as a transaction. -/
theorem signedAs_of_valid {t : TransactionStruct} (h : t.valid = true) (height : Nat) :
    SignedAs crypto packer .transaction (signedText height t.commands) := by
  unfold TransactionStruct.valid at h
  simp only [Bool.and_eq_true] at h
  exact ⟨height, t.commands, Bool.and_eq_true_iff.mpr h.1.1.2, rfl⟩

/-- **A transaction that verifies for a member has been stacked by it**: what it signs
else is no transaction. -/
theorem Authored.stacked (hhash : ∀ d, isKeyText (crypto.hash d) = true)
    (hstrict : packer.Strict) (h : Authored crypto packer key p) {t : TransactionStruct}
    (hvalid : t.valid = true) (hunforged : Unforged crypto packer key p t.origin t.sig)
    (hmember : ∃ i, key i = t.origin) {height : Nat}
    (hverify : crypto.verifySignature t.origin t.sig (signedText height t.commands) = true) :
    Stacked key p t.origin t.commands := by
  have hsigned : SignedAs crypto packer .transaction (signedText height t.commands) :=
    signedAs_of_valid hvalid height
  rcases hunforged hmember _ hsigned hverify with ⟨i, hi, r, hr, height', heq⟩ | helse
  · have hkeyed := (TransactionStruct.valid_wellKeyed hvalid).2
    obtain ⟨-, hcommands⟩ := signedText_unique hkeyed ((h i).keyed r hr) heq
    exact ⟨i, hi, r, hr, hcommands.symm⟩
  · exact absurd hsigned (signedElse_ne hhash hstrict helse)

/-- The blocks a node has committed or has in its store. -/
def blocks (p : Party ι) (i : ι) : List BlockStruct := (p i).committed ++ (p i).chain.chain

/-- A block that has been let in has the transactions of members as they were
stacked. -/
theorem Authored.of_blocks (hhash : ∀ d, isKeyText (crypto.hash d) = true)
    (hstrict : packer.Strict) (h : Authored crypto packer key p) {i : ι} {b : BlockStruct}
    (hb : b ∈ p.blocks i) {t : TransactionStruct} (ht : t ∈ b.tx)
    (hmember : ∃ i, key i = t.origin) : Stacked key p t.origin t.commands := by
  have hlet : TxsIn (Unforged crypto packer key p) b.tx ∧ Vouched crypto key b := by
    rcases List.mem_append.mp hb with hb | hb
    · exact (h i).sourced.committed b hb
    · exact (h i).sourced.stored b hb
  obtain ⟨hverify, hvalid⟩ := hlet.2 t ht hmember
  exact h.stacked hhash hstrict hvalid (hlet.1 t ht) hmember hverify

/-- What a node has sent, in whatever box it is, is not forged. -/
theorem Authored.outbox (h : Authored crypto packer key p) {i : ι} {m : Message}
    (hm : m ∈ (p i).outbox m.data) : TxsIn (Unforged crypto packer key p) m.data.txs := by
  cases hdata : m.data with
  | addTx height tx =>
      rw [hdata] at hm
      exact hdata ▸ (h i).posted m hm
  | proposeBlock b =>
      rw [hdata] at hm
      exact hdata ▸ (h i).sourced.sent m hm
  | signBlock hash sig => exact fun _ h => (nomatch h)
  | confirmBlock hash votes => exact fun _ h => (nomatch h)
  | status kind height => exact fun _ h => (nomatch h)

variable [DecidableEq ι]

/-- A turn takes nothing back that has been signed. -/
theorem Signed.turn {i : ι} {turn : Turn} {e : Node.Event} {origin d : Text}
    (h : Signed crypto packer key p origin d) :
    Signed crypto packer key (p.turn crypto i turn e) origin d := by
  rcases h with ⟨j, hj, r, hr, heq⟩ | helse
  case inr => exact Or.inr helse
  refine Or.inl ⟨j, hj, r, ?_, heq⟩
  by_cases hij : j = i
  · subst hij
    rw [Party.turn, Function.update_self]
    exact (Node.handles_step (p j) turn e).accepted_subset hr
  · rw [Party.turn, Function.update_of_ne hij]
    exact hr

theorem Unforged.turn {i : ι} {turn : Turn} {e : Node.Event} {origin sig : Text}
    (h : Unforged crypto packer key p origin sig) :
    Unforged crypto packer key (p.turn crypto i turn e) origin sig :=
  fun hmember d hd hverify => (h hmember d hd hverify).turn

/-- **A turn keeps it so.** -/
theorem Authored.turn (hsound : crypto.SignSound) (h : Authored crypto packer key p) {i : ι}
    {turn : Turn} {e : Node.Event} (hin : TxsIn (Unforged crypto packer key p) e.txs) :
    Authored crypto packer key (p.turn crypto i turn e) := by
  have hmono : ∀ origin sig, Unforged crypto packer key p origin sig →
      Unforged crypto packer key (p.turn crypto i turn e) origin sig := fun _ _ hold => hold.turn
  intro j
  by_cases hj : j = i
  · subst hj
    have hself : p.turn crypto j turn e j = (p j).step crypto turn e := Function.update_self ..
    have hown : ∀ r ∈ (p.turn crypto j turn e j).accepted, ∀ height,
        Unforged crypto packer key (p.turn crypto j turn e) (key j)
          (crypto.sign (key j) (signedText height r.commands)) :=
      fun r hr => unforged_own hsound hr
    rw [hself] at hown ⊢
    exact ((h j).mono hmono).step admits_vouched (hin.mono hmono) hown
  · have hother : p.turn crypto i turn e j = p j := Function.update_of_ne hj ..
    rw [hother]
    exact (h j).mono hmono

theorem Reaches.all_authored {ok : Node → Turn → Node.Event → Prop} (hsound : crypto.SignSound)
    {p₀ : Party ι} (h : Reaches crypto packer key ok p₀ p)
    (hstart : Authored crypto packer key p₀) :
    Authored crypto packer key p := by
  induction h with
  | refl => exact hstart
  | turn h i turn e hin hok ih => exact ih.turn hsound hin

/-- The turns of one node are a run of that node. -/
theorem Reaches.node {ok : Node → Turn → Node.Event → Prop} {p₀ : Party ι}
    (h : Reaches crypto packer key ok p₀ p) (i : ι) : Node.Reaches crypto ok (p₀ i) (p i) := by
  induction h with
  | refl => exact .refl
  | @turn p h j turn e hin hok ih =>
      by_cases hij : i = j
      · subst hij
        rw [Party.turn, Function.update_self]
        exact ih.step turn e hok
      · rw [Party.turn, Function.update_of_ne hij]
        exact ih

/-- One node takes a few turns while the others wait; what comes in is not forged when
they begin. -/
theorem Reaches.run {ok : Node → Turn → Node.Event → Prop} {p₀ : Party ι} {i : ι} :
    ∀ {l : List (Turn × Node.Event)} {p : Party ι} {n : Node}, Reaches crypto packer key ok p₀ p →
      p i = n → (∀ x ∈ l, TxsIn (Unforged crypto packer key p) x.2.txs) →
        Node.Allowed crypto ok n l →
        ∃ p', Reaches crypto packer key ok p₀ p' ∧ p' i = n.run crypto l
          ∧ ∀ j, j ≠ i → p' j = p j
  | [], p, _, h, hn, _, _ => ⟨p, h, hn, fun _ _ => rfl⟩
  | x :: l, p, n, h, hn, hin, hok => by
      have hself : p.turn crypto i x.1 x.2 i = n.step crypto x.1 x.2 := by
        rw [← hn]
        exact Function.update_self ..
      have hnext : ∀ y ∈ l, TxsIn (Unforged crypto packer key (p.turn crypto i x.1 x.2)) y.2.txs :=
        fun y hy => (hin y (List.mem_cons_of_mem x hy)).mono fun _ _ hold => hold.turn
      obtain ⟨p', hp', hi, hrest⟩ :=
        Reaches.run (h.turn i x.1 x.2 (hin x List.mem_cons_self) (hn ▸ hok.1)) hself hnext hok.2
      exact ⟨p', hp', hi, fun j hj => (hrest j hj).trans (Function.update_of_ne hj ..)⟩

/-- **Nobody brings in a transaction for somebody else.**  Among any number of
strangers, with any messages and sync answers, in any order of turns: if a
member has committed or stored a transaction under the key of a member, then
that one has stacked exactly these commands. -/
theorem authored {genesis : BlockStruct} {maxBlocks : ι → Nat} {answers : ι → Nat → Bool}
    {chain : ι → Blockchain} (hhash : ∀ d, isKeyText (crypto.hash d) = true)
    (hstrict : packer.Strict) (hsound : crypto.SignSound) (hkey : Function.Injective key)
    (hgenesis : ∀ t ∈ genesis.tx, ∀ i, key i ≠ t.origin)
    (hstart : ∀ i, (Blockchain.fresh (key i) (maxBlocks i)).reset (answers i) genesis
      = some (chain i)) {ok : Node → Turn → Node.Event → Prop}
    (h : Reaches crypto packer key ok (fun i => Node.start (chain i)) p) (i j : ι)
    {b : BlockStruct} (hb : b ∈ p.blocks i) {t : TransactionStruct} (ht : t ∈ b.tx)
    (horigin : t.origin = key j) : ∃ r ∈ (p j).accepted, r.commands = t.commands := by
  have hall := h.all_authored hsound (authored_start hgenesis hstart)
  obtain ⟨j', hj', hr⟩ := hall.of_blocks hhash hstrict hb ht ⟨j, horigin.symm⟩
  obtain rfl := hkey (hj'.trans horigin)
  exact hr

section Sample

open Blockchain (sampleCrypto sampleStart sampleTx sampleGenesis)
open Node (allOnline messageOf)

/-- Texts that are not in the table have one hash. -/
def sampleHashes : Crypto :=
  { sampleCrypto with
    hash := fun d => if isKeyText (sampleCrypto.hash d) then sampleCrypto.hash d else zeros 43 }

theorem isKeyText_sampleHashes (d : Text) : isKeyText (sampleHashes.hash d) = true := by
  show isKeyText (if _ then _ else _) = true
  split
  next hkey => exact hkey
  next => decide +kernel

theorem signSound_sampleHashes : sampleHashes.SignSound :=
  (tableCrypto_signBinding [] _).sound

/-- Peers 0 and 1 are the members; peer 2 is a stranger to them. -/
def sampleKey (i : Fin 2) : Text := keyOf i

theorem sampleKey_injective : Function.Injective sampleKey := by
  have hkeys : ∀ i j : Fin 2, sampleKey i = sampleKey j → i = j := by decide +kernel
  exact hkeys

theorem origin_sampleGenesis : ∀ t ∈ sampleGenesis.tx, ∀ i, sampleKey i ≠ t.origin := by
  intro t ht i
  obtain rfl := List.mem_singleton.mp ht
  have hne : ∀ i : Fin 2, sampleKey i ≠ zeros 43 := by decide +kernel
  exact hne i

theorem start_sampleKey (i : Fin 2) : (Blockchain.fresh (sampleKey i) 100).reset (fun _ => true)
    sampleGenesis = some (sampleStart i) := System.start_samples (i.castLE (by decide))

/-- Peer 0 stacks a transaction that removes it. -/
def stackSample : List (Turn × Node.Event) :=
  [(allOnline, .p2pNetwork), (allOnline, .stackTx sampleTx.commands ['t'])]

/-- Peer 1 pools it, makes a block of it and commits that with the vote of peer 2. -/
def commitSample : List (Turn × Node.Event) :=
  [(allOnline, .p2pNetwork), (allOnline, .message (messageOf 0 (.addTx 2 sampleTx))),
    (allOnline, .timeoutProposeBlock),
    (allOnline, .message (messageOf 2 (.signBlock (label 43 1) (label 86 3)))),
    (allOnline, .resumeAdd 0), (allOnline, .resumeAdd 0), (allOnline, .resumeAdd 0)]

def stackingNode : Node := (Node.start (sampleStart 0)).run sampleHashes stackSample

def committingNode : Node := (Node.start (sampleStart 1)).run sampleHashes commitSample

theorem reaches_sample : ∃ p : Party (Fin 2),
    Reaches sampleHashes markedPacker sampleKey (Node.Sequential sampleHashes)
        (fun i => Node.start (sampleStart i)) p
      ∧ p 0 = stackingNode ∧ p 1 = committingNode := by
  have hstart : Reaches sampleHashes markedPacker sampleKey (Node.Sequential sampleHashes)
      (fun i : Fin 2 => Node.start (sampleStart i)) (fun i => Node.start (sampleStart i)) := .refl
  have hsilent : ∀ x ∈ stackSample, x.2.txs = [] := by decide +kernel
  obtain ⟨p, hp, hzero, hrest⟩ := hstart.run (i := 0) rfl
    (fun x hx t ht => absurd (hsilent x hx ▸ ht) List.not_mem_nil) (by decide +kernel)
  -- From now on the transaction of peer 0 may come in from anywhere.
  have hstacked : sampleTx.record ∈ (p 0).accepted := by
    rw [hzero]
    decide +kernel
  have hall := hp.all_authored signSound_sampleHashes
    (authored_start origin_sampleGenesis start_sampleKey)
  have hsig : sampleHashes.sign (sampleKey 0) (signedText 2 sampleTx.record.commands)
      = sampleTx.sig := by decide +kernel
  have hknown : Unforged sampleHashes markedPacker sampleKey p sampleTx.origin sampleTx.sig :=
    hsig ▸ unforged_own signSound_sampleHashes (i := (0 : Fin 2)) hstacked 2
  have hin : ∀ x ∈ commitSample,
      TxsIn (Unforged sampleHashes markedPacker sampleKey p) x.2.txs := by
    have htxs : ∀ x ∈ commitSample, ∀ t ∈ x.2.txs, t = sampleTx := by decide +kernel
    intro x hx t ht
    obtain rfl := htxs x hx t ht
    exact hknown
  obtain ⟨p', hp', hone, hrest'⟩ := hp.run (hrest 1 (by decide)) hin (by decide +kernel)
  exact ⟨p', hp', (hrest' 0 (by decide)).trans hzero, hone⟩

/-- Peer 1 has committed the transaction of peer 0, and peer 0 has stacked it. -/
theorem authored_of_sample : ∃ p : Party (Fin 2), p 0 = stackingNode ∧ p 1 = committingNode
    ∧ ∃ r ∈ (p 0).accepted, r.commands = sampleTx.commands := by
  obtain ⟨p, hp, hzero, hone⟩ := reaches_sample
  have hcommitted : ∃ b ∈ committingNode.committed ++ committingNode.chain.chain,
      sampleTx ∈ b.tx := by decide +kernel
  obtain ⟨b, hb, ht⟩ := hcommitted
  have hblocks : b ∈ p.blocks 1 := by
    rw [blocks, hone]
    exact hb
  exact ⟨p, hzero, hone, authored isKeyText_sampleHashes markedPacker_strict
    signSound_sampleHashes sampleKey_injective origin_sampleGenesis start_sampleKey hp 1 0 hblocks
    ht rfl⟩

end Sample

end Party

/-! ## §4. Nobody else takes a member out. -/

namespace Blockchain

variable {crypto : Crypto} {genesis : BlockStruct} {publicKey : Text}

/-- A peer that is gone at some point of a block has signed its removal there. -/
theorem resigns_of_gone {l : Ledger} {b : BlockStruct}
    (hvalid : validateBlock crypto l b true = true) {n : Nat} (hpeer : l.hasPeer publicKey = true)
    (hgone : (l.during b.tx n).hasPeer publicKey = false) : Resigns crypto b publicKey := by
  obtain ⟨t, ht, c, hc, hbody⟩ := Ledger.exists_removePeer (Nat.zero_le n) hpeer hgone
  obtain ⟨-, -, hverify, hcommands⟩ :=
    validateTx_iff.mp ((validateBlock_true_iff.mp hvalid).1.txs t ht)
  have horigin : t.origin = publicKey := by
    have hcheck := hcommands c hc
    simp only [validateCommand, hbody] at hcheck
    exact of_decide_eq_true hcheck
  exact ⟨t, ht, horigin, horigin ▸ hverify, c, hc, hbody⟩

/-- **A peer that goes in a validated sequence has signed its removal** in one of
the blocks that came after. -/
theorem Validated.resigns {bs : List BlockStruct} (h : Validated crypto genesis bs) {k : Nat}
    (hk : 0 < k) (hpeer : (Ledger.fresh.applyBlocks (bs.take k)).hasPeer publicKey = true)
    (hgone : (Ledger.fresh.applyBlocks bs).hasPeer publicKey = false) :
    ∃ b ∈ bs.drop k, Resigns crypto b publicKey := by
  induction h with
  | genesis =>
      rw [List.take_of_length_le hk] at hpeer
      rw [hpeer] at hgone
      exact nomatch hgone
  | @snoc bs last b hbs hlast hheight hprev hvalid ih =>
      by_cases hle : k ≤ bs.length
      · rw [List.take_append_of_le_length hle] at hpeer
        rw [List.drop_append_of_le_length hle]
        by_cases hbefore : (Ledger.fresh.applyBlocks bs).hasPeer publicKey = true
        -- it goes in the last block
        · refine ⟨b, List.mem_append_right _ List.mem_cons_self, ?_⟩
          rw [Ledger.applyBlocks_append] at hgone
          exact resigns_of_gone hvalid (n := (commandsOf b.tx).length) hbefore
            ((Ledger.during_length _ _).symm ▸ hgone)
        · obtain ⟨b', hb', hresigns⟩ := ih hpeer (Bool.eq_false_iff.mpr hbefore)
          exact ⟨b', List.mem_append_left _ hb', hresigns⟩
      · have hall : (bs ++ [b]).length ≤ k := by
          rw [List.length_append, List.length_singleton]
          omega
        rw [List.take_of_length_le hall] at hpeer
        rw [hpeer] at hgone
        exact nomatch hgone

end Blockchain

/-- The same while a block is being applied. -/
theorem Consensus.Settled.resigns {crypto : Crypto} {genesis : BlockStruct}
    {base : List BlockStruct} {c : Consensus} (h : Settled crypto genesis base c) {publicKey : Text}
    {k : Nat} (hk : 0 < k)
    (hpeer : (Ledger.fresh.applyBlocks ((base ++ c.committed).take k)).hasPeer publicKey = true)
    (hgone : c.chain.hasPeer publicKey = false) :
    ∃ b ∈ (base ++ c.committed).drop k ++ c.chain.chain, Blockchain.Resigns crypto b publicKey := by
  have hphase := h.phase
  by_cases hbefore :
      (Ledger.fresh.applyBlocks (base ++ c.committed)).hasPeer publicKey = true
  · cases hadds : c.adds with
    | nil =>
        rw [hadds] at hphase
        rw [hphase.1, hbefore] at hgone
        exact nomatch hgone
    | cons t l =>
        rw [hadds] at hphase
        cases l with
        | nil =>
            obtain ⟨happly, hvalid⟩ := hphase
            obtain ⟨last, -, -, -, hlast⟩ := hvalid.of_concat h.validated.ne_nil
            rw [happly.ledger] at hgone
            refine ⟨t.stored, List.mem_append_right _ ?_,
              Blockchain.resigns_of_gone hlast hbefore hgone⟩
            rw [Blockchain.chain, happly.stored]
            exact List.mem_append_right _ List.mem_cons_self
        | cons t' l => exact hphase.elim
  · obtain ⟨b, hb, hresigns⟩ := h.validated.resigns hk hpeer (Bool.eq_false_iff.mpr hbefore)
    exact ⟨b, List.mem_append_left _ hb, hresigns⟩

namespace Party

variable {ι : Type} [DecidableEq ι] {crypto : Crypto} {packer : Packer} {key : ι → Text}
  {p : Party ι}

/-- **Nobody else takes a member out.**  If a member was a peer after some block
that a node has committed, and is none any more, then it has stacked a removal
of itself. -/
theorem evicted_by_itself {genesis : BlockStruct} {maxBlocks : ι → Nat} {answers : ι → Nat → Bool}
    {chain : ι → Blockchain} (hhash : ∀ d, isKeyText (crypto.hash d) = true)
    (hstrict : packer.Strict) (hsound : crypto.SignSound) (hkey : Function.Injective key)
    (hg : 1 ≤ genesis.height) (hgenesis : ∀ t ∈ genesis.tx, ∀ i, key i ≠ t.origin)
    (hstart : ∀ i, (Blockchain.fresh (key i) (maxBlocks i)).reset (answers i) genesis
      = some (chain i))
    (h : Reaches crypto packer key (Node.Sequential crypto) (fun i => Node.start (chain i)) p)
    (i j : ι)
    {bs : List BlockStruct} (hbs : bs <+: [genesis] ++ (p i).committed)
    (hpeer : (Ledger.fresh.applyBlocks bs).hasPeer (key j) = true)
    (hgone : (p i).chain.hasPeer (key j) = false) :
    ∃ r ∈ (p j).accepted, ∃ c ∈ r.commands, c.body = .removePeer (key j) := by
  have hsettled := (h.node i).settled .genesis (Blockchain.holds_start hg (hstart i))
  -- the peers of no block at all are none
  have hpos : 0 < bs.length := by
    refine List.length_pos_iff.mpr ?_
    rintro rfl
    exact absurd hpeer Bool.false_ne_true
  rw [List.prefix_iff_eq_take.mp hbs] at hpeer
  obtain ⟨b, hb, t, ht, horigin, -, c, hc, hbody⟩ :=
    hsettled.resigns hpos hpeer hgone
  have hblocks : b ∈ p.blocks i := by
    rcases List.mem_append.mp hb with hb | hb
    · refine List.mem_append_left _ ?_
      obtain ⟨n, hn⟩ := Nat.exists_eq_add_one_of_ne_zero (Nat.ne_of_gt hpos)
      rw [hn, List.singleton_append, List.drop_succ_cons] at hb
      exact List.mem_of_mem_drop hb
    · exact List.mem_append_right _ hb
  have hall := h.all_authored hsound (authored_start hgenesis hstart)
  obtain ⟨j', hj', r, hr, hcommands⟩ := hall.of_blocks hhash hstrict hblocks ht ⟨j, horigin.symm⟩
  obtain rfl := hkey (hj'.trans horigin)
  exact ⟨r, hr, c, hcommands ▸ hc, hbody⟩

open Blockchain (sampleGenesis) in
/-- At peer 1 peer 0 is gone after its transaction, which removes it. -/
theorem evicted_by_itself_of_sample : ∃ p : Party (Fin 2), p 0 = stackingNode ∧ p 1 = committingNode
    ∧ ∃ r ∈ (p 0).accepted, ∃ c ∈ r.commands, c.body = .removePeer (keyOf 0) := by
  obtain ⟨p, hp, hzero, hone⟩ := reaches_sample
  exact ⟨p, hzero, hone, evicted_by_itself isKeyText_sampleHashes markedPacker_strict
    signSound_sampleHashes sampleKey_injective (by decide) origin_sampleGenesis start_sampleKey hp
    1 0 (List.prefix_append [sampleGenesis] _) (by decide +kernel) (by rw [hone]; decide +kernel)⟩

/-! ## §5. Nodes among themselves. -/

/-- **Where nodes hear from each other only, nothing is forged**: the runs of a
system are runs among strangers. -/
theorem of_system {ok : Node → Turn → Node.Event → Prop} (hsound : crypto.SignSound)
    {s₀ s : System ι} (hstart : Authored crypto packer key s₀.nodes) (hserved : s₀.served = [])
    (h : System.Reaches crypto ok s₀ s) :
    Reaches crypto packer key ok s₀.nodes s.nodes
      ∧ ∀ b ∈ s.served, TxsIn (Unforged crypto packer key s.nodes) b.tx := by
  induction h with
  | refl =>
      rw [hserved]
      exact ⟨.refl, fun _ h => (nomatch h)⟩
  | @turn s h i turn e hnet hok ih =>
      obtain ⟨hreaches, hblocks⟩ := ih
      have hall := hreaches.all_authored hsound hstart
      have hin : TxsIn (Unforged crypto packer key s.nodes) e.txs := by
        cases e with
        | message m =>
            obtain ⟨j, hm⟩ := hnet
            exact hall.outbox hm
        | syncAnswer blocks =>
            intro t ht
            obtain ⟨b, hb, ht⟩ := List.mem_flatMap.mp ht
            exact hblocks b (hnet b hb) t ht
        | stackTx commands ident => exact fun _ h => (nomatch h)
        | timeoutAddTx => exact fun _ h => (nomatch h)
        | timeoutProposeBlock => exact fun _ h => (nomatch h)
        | timeoutRetry => exact fun _ h => (nomatch h)
        | timeoutStatus => exact fun _ h => (nomatch h)
        | resumeAdd i => exact fun _ h => (nomatch h)
        | continueSync => exact fun _ h => (nomatch h)
        | p2pNetwork => exact fun _ h => (nomatch h)
      refine ⟨hreaches.turn i turn e hin hok, ?_⟩
      intro b hb
      exact (hblocks b hb).mono fun _ _ hold => Unforged.turn (p := s.nodes) hold
  | @serve s h i ih =>
      obtain ⟨hreaches, hblocks⟩ := ih
      have hall := hreaches.all_authored hsound hstart
      refine ⟨hreaches, ?_⟩
      intro b hb
      rcases List.mem_append.mp hb with hb | hb
      · exact hblocks b hb
      · rcases List.mem_append.mp hb with hb | hb
        · exact (hall i).sourced.cached b hb
        · exact ((hall i).sourced.stored b hb).1

end Party

end Divachain
