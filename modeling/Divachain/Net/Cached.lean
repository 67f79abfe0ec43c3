/-
  Divachain.Net.Cached — the cache while calls of `add` are suspended.

  `add` stores the text of a block, applies the commands, and caches the object.
  The object is the candidate of the block factory, which goes on at every await:
  a vote may be pushed to it, and a confirmation may replace its votes.  So the
  cached block has the votes of the end of the call, and the stored one those of
  its start.

  The invariant `Caches` says that cache and store agree and that the object of a
  call in flight is what the call has stored.

  Main result: both hold in every run of new processes, resets and turns that do
  not overlap calls, if no command that is applied is clamped and no votes are
  written to a block whose call is suspended.
-/
import Divachain.Chain.Cache
import Divachain.Net.ExactlyOnce

namespace Divachain

open DataKit
open Blockchain (Agrees Hashed)

/-- Writing a command over itself changes nothing. -/
theorem setCommandOf_self :
    ∀ {tx : List TransactionStruct} {k : Nat} {oc : Text × Command},
      (commandsOf tx)[k]? = some oc → setCommandOf tx k oc.2 = tx
  | [], _, _, _ => rfl
  | t :: tx, k, oc, h => by
      rw [commandsOf_cons] at h
      unfold setCommandOf
      split
      next hlt =>
        rw [List.getElem?_append_left (by simpa using hlt), List.getElem?_map,
          Option.map_eq_some_iff] at h
        obtain ⟨c, hc, rfl⟩ := h
        obtain ⟨hk, rfl⟩ := List.getElem?_eq_some_iff.mp hc
        rw [List.set_getElem_self]
      next hge =>
        rw [List.getElem?_append_right (by simpa using hge), List.length_map] at h
        rw [setCommandOf_self h]

namespace Consensus

/-! ## §1. The invariant. -/

/-- A call in flight: its object is what it has stored. -/
structure Suspended (c : Consensus) (t : AddTask) : Prop where
  allocated : t.obj < c.next
  object : c.objects t.obj = t.stored
  next : c.chain.height + 1 = t.stored.height
  stored : c.chain.dbBlockchain.get? t.stored.height = some t.stored

/-- **Cache and store agree**, and so will they when the call in flight returns. -/
structure Caches (crypto : Crypto) (Genesis : BlockStruct → Prop) (c : Consensus) : Prop where
  allocated : ∀ obj, c.block = some obj → obj < c.next
  agrees : Agrees crypto Genesis c.chain
  one : c.adds.length ≤ 1
  suspended : ∀ t ∈ c.adds, c.Suspended t

/-- No object of a call in flight is written to. -/
def Unwritten (c c' : Consensus) : Prop := ∀ t ∈ c.adds, c'.objects t.obj = c.objects t.obj

variable {crypto : Crypto} {Genesis : BlockStruct → Prop} {c : Consensus}

theorem caches_start {chain : Blockchain} (h : Agrees crypto Genesis chain) :
    Caches crypto Genesis (start chain) :=
  ⟨fun _ h => (nomatch h), h, Nat.zero_le _, fun _ h => (nomatch h)⟩

/-! ## §2. Operations that leave the chain and the calls alone. -/

/-- The invariant does not see a change that keeps the objects of the calls. -/
theorem Caches.congr {c' : Consensus} (h : Caches crypto Genesis c) (hchain : c'.chain = c.chain)
    (hadds : c'.adds = c.adds) (hnext : c.next ≤ c'.next)
    (hblock : ∀ obj, c'.block = some obj → obj < c'.next) (hobjects : Unwritten c c') :
    Caches crypto Genesis c' := by
  refine ⟨hblock, ?_, ?_, ?_⟩
  · rw [hchain]
    exact h.agrees
  · rw [hadds]
    exact h.one
  · rw [hadds]
    intro t ht
    have hcall := h.suspended t ht
    refine ⟨Nat.lt_of_lt_of_le hcall.allocated hnext, (hobjects t ht).trans hcall.object, ?_, ?_⟩
    all_goals rw [hchain]
    · exact hcall.next
    · exact hcall.stored

/-- The objects of the calls are older than the next one. -/
theorem Caches.unwritten_alloc (h : Caches crypto Genesis c) (b : BlockStruct) :
    Unwritten c (c.alloc b) := by
  intro t ht
  exact objects_alloc_of_ne (Nat.ne_of_lt (h.suspended t ht).allocated)

theorem Caches.alloc (h : Caches crypto Genesis c) (b : BlockStruct) :
    Caches crypto Genesis (c.alloc b) := by
  refine h.congr rfl rfl (Nat.le_succ _) ?_ (h.unwritten_alloc b)
  intro obj hobj
  exact Nat.lt_succ_of_lt (h.allocated obj hobj)

theorem Caches.hold (h : Caches crypto Genesis c) (b : BlockStruct) :
    Caches crypto Genesis (c.hold b) := by
  refine (h.alloc b).congr rfl rfl (Nat.le_refl _) ?_ fun _ _ => rfl
  intro obj hobj
  obtain rfl : c.next = obj := Option.some.inj hobj
  exact Nat.lt_succ_self _

theorem Caches.sign (h : Caches crypto Genesis c) (hash : Text) :
    Caches crypto Genesis (c.sign hash) :=
  h.congr rfl rfl (Nat.le_refl _) h.allocated fun _ _ => rfl

theorem Caches.send (h : Caches crypto Genesis c) (m : Message) :
    Caches crypto Genesis (c.send m) :=
  h.congr rfl rfl (Nat.le_refl _) h.allocated fun _ _ => rfl

/-- The state of the sync loop does not matter. -/
theorem Caches.setSync (h : Caches crypto Genesis c) (sync : SyncState) :
    Caches crypto Genesis { c with sync := sync } :=
  h.congr rfl rfl (Nat.le_refl _) h.allocated fun _ _ => rfl

theorem Caches.drop (h : Caches crypto Genesis c) : Caches crypto Genesis c.drop :=
  h.congr rfl rfl (Nat.le_refl _) (fun _ h => nomatch h) fun _ _ => rfl

/-- A write to an object that no call applies, or of what it has already. -/
theorem Caches.write (h : Caches crypto Genesis c) {obj : Nat} {b : BlockStruct}
    (hkept : Unwritten c (c.write obj b)) : Caches crypto Genesis (c.write obj b) :=
  h.congr rfl rfl (Nat.le_refl _) h.allocated hkept

/-! ## §3. A call starts, goes on and returns. -/

theorem objects_startAdd (c : Consensus) (obj : Nat) (fromSync : Bool) :
    (c.startAdd crypto obj fromSync).objects = c.objects := by
  rcases c.startAdd_cases crypto obj fromSync with ⟨-, hstep⟩ | ⟨-, hstep⟩
  · rw [hstep]
  · rw [hstep]

/-- **A call that passes its guard** while none is in flight. -/
theorem Caches.startAdd (h : Caches crypto Genesis c) {obj : Nat} (fromSync : Bool)
    (hobj : obj < c.next) (hone : (c.startAdd crypto obj fromSync).adds.length ≤ 1) :
    Caches crypto Genesis (c.startAdd crypto obj fromSync) := by
  rcases c.startAdd_cases crypto obj fromSync with ⟨haccepts, hstep⟩ | ⟨-, hstep⟩
  · rw [hstep] at hone ⊢
    obtain ⟨hnext, -, hwf, -⟩ := (Blockchain.accepts_iff crypto).mp haccepts
    refine ⟨h.allocated, h.agrees.putBlock hnext hwf.hash, hone, ?_⟩
    have hnone : c.adds = [] := adds_eq_nil hone
    intro t ht
    change t ∈ c.adds ++ [_] at ht
    rw [hnone] at ht
    obtain rfl := List.mem_singleton.mp ht
    exact ⟨hobj, rfl, hnext, Blockchain.get?_putBlock_self _ _⟩
  · rw [hstep]
    exact h

/-- The call in flight is the only one. -/
theorem Caches.task (h : Caches crypto Genesis c) {i : Nat} {t : AddTask}
    (ht : c.adds[i]? = some t) : i = 0 ∧ c.adds = [t] := by
  have hone := h.one
  cases hc : c.adds with
  | nil =>
      rw [hc] at ht
      exact nomatch ht
  | cons t' l =>
      rw [hc] at ht hone
      obtain rfl : l = [] :=
        List.length_eq_zero_iff.mp (Nat.le_zero.mp (Nat.le_of_succ_le_succ hone))
      cases i with
      | zero =>
          obtain rfl : t' = t := Option.some.inj ht
          exact ⟨rfl, rfl⟩
      | succ i => exact nomatch ht

/-- **The call applies its next command**, and writes nothing to it. -/
theorem Caches.runCommand (h : Caches crypto Genesis c) {i : Nat} {t : AddTask}
    {oc : Text × Command} (ht : c.adds[i]? = some t)
    (hkept : Unwritten c (c.runCommand i t oc)) : Caches crypto Genesis (c.runCommand i t oc) := by
  obtain ⟨rfl, hadds⟩ := h.task ht
  have hmem : t ∈ c.adds := List.mem_of_getElem? ht
  have hcall := h.suspended t hmem
  have hagrees := h.agrees
  refine ⟨h.allocated, ⟨hagrees.cached, hagrees.below, hagrees.latest, hagrees.keyed,
    hagrees.hashed⟩, (List.length_set ..).trans_le h.one, ?_⟩
  intro t' ht'
  change t' ∈ c.adds.set 0 _ at ht'
  rw [hadds] at ht'
  obtain rfl := List.mem_singleton.mp ht'
  exact ⟨hcall.allocated, (hkept t hmem).trans hcall.object, hcall.next, hcall.stored⟩

/-- **Where a call returns, cache and store agree if and only if its object is still what
it has stored.** -/
theorem agrees_finish_iff (h : Agrees crypto Genesis c.chain) {t : AddTask} {answer : Bool}
    {chain : Blockchain} (hnext : c.chain.height + 1 = t.stored.height)
    (hstored : c.chain.dbBlockchain.get? t.stored.height = some t.stored)
    (hheight : (c.objects t.obj).height = t.stored.height)
    (hc : c.chain.updateCache answer (c.objects t.obj) = some chain) :
    Agrees crypto Genesis chain ↔ c.objects t.obj = t.stored := by
  constructor
  · intro hagrees
    have hspec := Blockchain.updateCache_spec hc
    have hlatest := hagrees.latest _ hspec.latestBlock
    rw [hspec.dbBlockchain, hspec.height, hheight, hstored] at hlatest
    exact (Option.some.inj hlatest).symm
  · intro hobject
    rw [hobject] at hc
    refine Agrees.updateCache h.keyed h.hashed ?_ ?_ hstored hc
    · exact fun height b hb _ => h.cached height b hb
    · exact fun height b hb => hnext ▸ Nat.le_succ_of_le (h.below height b hb)

/-- **The call returns**, and caches what it has stored. -/
theorem Caches.finish (h : Caches crypto Genesis c) {i : Nat} {t : AddTask} {answer : Bool}
    {chain : Blockchain} (ht : c.adds[i]? = some t)
    (hc : c.chain.updateCache answer (c.objects t.obj) = some chain) :
    Caches crypto Genesis (c.finish i t chain) := by
  obtain ⟨rfl, hadds⟩ := h.task ht
  have hcall := h.suspended t (List.mem_of_getElem? ht)
  have hnone : (c.finish 0 t chain).adds = [] := by
    show c.adds.eraseIdx 0 = []
    rw [hadds]
    rfl
  have hheight := congrArg BlockStruct.height hcall.object
  refine ⟨fun _ h => (nomatch h), ?_, ?_, ?_⟩
  · exact (agrees_finish_iff h.agrees hcall.next hcall.stored hheight hc).mpr hcall.object
  · rw [hnone]
    exact Nat.zero_le 1
  · rw [hnone]
    exact fun _ h => nomatch h

/-! ## §4. Moves. -/

/-- A vote, as long as it is not for a block whose call is suspended. -/
theorem Caches.processSignBlock (h : Caches crypto Genesis c) {now : Nat} {origin hash sig : Text}
    (hone : (c.processSignBlock crypto now origin hash sig).adds.length ≤ 1)
    (hkept : Unwritten c (c.processSignBlock crypto now origin hash sig)) :
    Caches crypto Genesis (c.processSignBlock crypto now origin hash sig) := by
  rcases c.processSignBlock_cases crypto now origin hash sig with
    ⟨-, hstep⟩ | ⟨obj, hobj, ⟨-, hstep⟩ | ⟨-, hstep⟩⟩
  · rw [hstep]
    exact h
  · rw [hstep] at hkept ⊢
    exact h.write hkept
  -- Whether the call starts or not, the vote is on the object now.
  · rw [hstep] at hone hkept ⊢
    have hpush := h.write fun t ht => (congrFun (objects_startAdd _ _ _) _).symm.trans (hkept t ht)
    exact (hpush.startAdd false (h.allocated obj (block_of_votable hobj).1) hone).send _

theorem Caches.processConfirmBlock (h : Caches crypto Genesis c) {hash : Text}
    {votes : List VoteStruct} (hone : (c.processConfirmBlock crypto hash votes).adds.length ≤ 1)
    (hkept : Unwritten c (c.processConfirmBlock crypto hash votes)) :
    Caches crypto Genesis (c.processConfirmBlock crypto hash votes) := by
  rcases c.processConfirmBlock_cases crypto hash votes with hstep | ⟨obj, hblock, -, -, hstep⟩
  · rw [hstep]
    exact h
  · rw [hstep] at hone hkept ⊢
    have hwrite := h.write fun t ht => (congrFun (objects_startAdd _ _ _) _).symm.trans (hkept t ht)
    exact hwrite.startAdd false (h.allocated obj hblock) hone

/-- A candidate that is held is an object of its own. -/
theorem Caches.approve (h : Caches crypto Genesis c) (b : BlockStruct) {now : Nat}
    {validator : Text}
    (hone : ((c.hold b).approve crypto now validator b.hash).adds.length ≤ 1)
    (hkept : Unwritten c ((c.hold b).approve crypto now validator b.hash)) :
    Caches crypto Genesis ((c.hold b).approve crypto now validator b.hash) := by
  have hheld := (h.hold b).sign b.hash
  rcases (c.hold b).approve_cases crypto now validator b.hash with ⟨-, hstep⟩ | ⟨-, hstep⟩
  · rw [hstep] at hone hkept ⊢
    exact hheld.processSignBlock hone fun t ht =>
      (hkept t ht).trans (h.unwritten_alloc b t ht).symm
  · rw [hstep]
    exact hheld.send _

theorem Caches.continueSync (h : Caches crypto Genesis c)
    (hone : (c.continueSync crypto).adds.length ≤ 1) :
    Caches crypto Genesis (c.continueSync crypto) := by
  rcases c.continueSync_cases crypto with hstep | ⟨sync, -, hstep⟩ | ⟨b, blocks, -, -, hstep⟩
  · rw [hstep]
    exact h
  · rw [hstep]
    exact h.setSync sync
  · rw [hstep] at hone ⊢
    exact ((h.alloc b).startAdd true (Nat.lt_succ_self _) hone).setSync _

/-- **Every move keeps cache and store together** that starts no second call and
writes to no object of a call in flight. -/
theorem Caches.move {kind : Kind} {c' : Consensus} (h : Caches crypto Genesis c)
    (hmove : Move crypto c kind c') (hone : c'.adds.length ≤ 1) (hkept : Unwritten c c') :
    Caches crypto Genesis c' := by
  cases hmove with
  | quiet => exact h
  | propose now pool => exact ((h.hold _).sign _).send _
  | hold b hacc => exact h.hold b
  | approve b now validator hacc => exact h.approve b hone hkept
  | vote now origin hash sig => exact h.processSignBlock hone hkept
  | confirm hash votes => exact h.processConfirmBlock hone hkept
  | fetch height =>
      rcases c.fetchSync_cases height with hstep | hstep
      · rw [hstep]
        exact h
      · rw [hstep]
        exact h.setSync _
  | answer blocks =>
      rcases c.answerSync_cases blocks with hstep | hstep
      · rw [hstep]
        exact h
      · rw [hstep]
        exact h.setSync _
  | continueSync => exact h.continueSync hone
  | drop => exact h.drop
  | runCommand i t oc ht hp => exact h.runCommand ht hkept
  | finish i t answer chain ht hp hc => exact h.finish ht hc

/-- Votes go to the object they are for. -/
theorem objects_processSignBlock_of_ne {now obj : Nat} {origin hash sig : Text}
    (hne : c.votable origin hash ≠ some obj) :
    (c.processSignBlock crypto now origin hash sig).objects obj = c.objects obj := by
  rcases c.processSignBlock_cases crypto now origin hash sig with
    ⟨-, hstep⟩ | ⟨obj', hobj, hstep⟩
  · rw [hstep]
  have hother : obj ≠ obj' := fun heq => hne (heq ▸ hobj)
  rcases hstep with ⟨-, hstep⟩ | ⟨-, hstep⟩
  · rw [hstep]
    exact objects_write_of_ne hother
  · rw [hstep]
    exact (congrFun (objects_startAdd _ _ _) _).trans (objects_write_of_ne hother)

theorem objects_processConfirmBlock_of_same {hash : Text} {votes : List VoteStruct} {obj : Nat}
    (hsame : c.block = some obj → c.hasBlock = true → (c.objects obj).hash = hash →
      votes = (c.objects obj).votes) :
    (c.processConfirmBlock crypto hash votes).objects obj = c.objects obj := by
  rcases c.processConfirmBlock_cases crypto hash votes with
    hstep | ⟨obj', hblock, hheld, hhash, hstep⟩
  · rw [hstep]
  rw [hstep, objects_startAdd]
  by_cases heq : obj = obj'
  · subst heq
    rw [objects_write_self, hsame hblock hheld hhash]
  · exact objects_write_of_ne heq

/-- Accepting a candidate writes to the new object only. -/
theorem objects_approve_of_lt (b : BlockStruct) {now obj : Nat} {validator : Text}
    (hobj : obj < c.next) :
    ((c.hold b).approve crypto now validator b.hash).objects obj = c.objects obj := by
  have hne : obj ≠ c.next := Nat.ne_of_lt hobj
  have hheld : ((c.hold b).sign b.hash).objects obj = c.objects obj := objects_alloc_of_ne hne
  rcases (c.hold b).approve_cases crypto now validator b.hash with ⟨-, hstep⟩ | ⟨-, hstep⟩
  · rw [hstep, objects_processSignBlock_of_ne, hheld]
    intro hvotable
    exact hne (Option.some.inj (block_of_votable hvotable).1).symm
  · rw [hstep]
    exact hheld

theorem objects_continueSync_of_lt {obj : Nat} (hobj : obj < c.next) :
    (c.continueSync crypto).objects obj = c.objects obj := by
  rcases c.continueSync_cases crypto with hstep | ⟨sync, -, hstep⟩ | ⟨b, blocks, -, -, hstep⟩
  · rw [hstep]
  · rw [hstep]
  · rw [hstep]
    exact (congrFun (objects_startAdd _ _ _) _).trans (objects_alloc_of_ne (Nat.ne_of_lt hobj))

/-- A command that is not clamped is written over itself. -/
theorem objects_runCommand_of_unclamped {i obj : Nat} {t : AddTask} {oc : Text × Command}
    (hp : c.pending t = some oc) (hu : ¬ Clamped c.chain.toLedger oc) :
    (c.runCommand i t oc).objects obj = c.objects obj := by
  by_cases heq : obj = t.obj
  · subst heq
    have hwritten : (c.runCommand i t oc).objects t.obj = { c.objects t.obj with
        tx := setCommandOf (c.objects t.obj).tx t.pos
          (c.chain.toLedger.processCommand oc.1 oc.2).2 } := Function.update_self ..
    rw [hwritten, processCommand_snd_iff.mpr hu, setCommandOf_self hp]
  · exact Function.update_of_ne heq ..

end Consensus

namespace Node

/-! ## §5. Turns. -/

/-- The message writes votes to the block of a call in flight: a vote that is pushed, or
a confirmation with other votes. -/
def WritesVotes (n : Node) (turn : Turn) (m : Message) : Prop :=
  match m.data with
  | .signBlock hash _ =>
      (n.calcValidator turn).isValidator n.chain.publicKey = true
        ∧ ∃ t ∈ n.adds, n.votable m.origin hash = some t.obj
  | .confirmBlock hash votes =>
      (n.calcValidator turn).isValidator m.origin = true
        ∧ ∃ t ∈ n.adds, n.block = some t.obj ∧ n.hasBlock = true
            ∧ (n.objects t.obj).hash = hash ∧ (n.objects t.obj).votes ≠ votes
  | _ => False

/-- The next command of the call is clamped. -/
def WritesStake (n : Node) (i : Nat) : Prop :=
  ∃ t, t ∈ n.adds[i]? ∧ ∃ oc, oc ∈ n.pending t ∧ Clamped n.chain.toLedger oc

/-- The turn writes to the block of a call in flight. -/
def WritesBlock (n : Node) (turn : Turn) : Event → Prop
  | .message m => n.WritesVotes turn m
  | .resumeAdd i => n.WritesStake i
  | _ => False

instance (n : Node) (turn : Turn) : ∀ m : Message, Decidable (n.WritesVotes turn m)
  | ⟨_, _, _, .addTx ..⟩ => isFalse id
  | ⟨_, _, _, .proposeBlock _⟩ => isFalse id
  | ⟨_, _, _, .signBlock ..⟩ => inferInstanceAs (Decidable (_ ∧ ∃ t ∈ n.adds, _))
  | ⟨_, _, _, .confirmBlock ..⟩ => inferInstanceAs (Decidable (_ ∧ ∃ t ∈ n.adds, _))
  | ⟨_, _, _, .status ..⟩ => isFalse id

instance (n : Node) (i : Nat) : Decidable (n.WritesStake i) :=
  inferInstanceAs (Decidable (∃ t, t ∈ n.adds[i]? ∧ ∃ oc, oc ∈ n.pending t ∧ _))

instance (n : Node) (turn : Turn) : ∀ e : Event, Decidable (n.WritesBlock turn e)
  | .message m => inferInstanceAs (Decidable (n.WritesVotes turn m))
  | .resumeAdd i => inferInstanceAs (Decidable (n.WritesStake i))
  | .stackTx .. => isFalse id
  | .timeoutAddTx => isFalse id
  | .timeoutProposeBlock => isFalse id
  | .timeoutRetry => isFalse id
  | .timeoutStatus => isFalse id
  | .syncAnswer _ => isFalse id
  | .continueSync => isFalse id
  | .p2pNetwork => isFalse id

/-- The turn starts no second call of `add` and writes to no block of the one in flight. -/
def Untouched (crypto : Crypto) (n : Node) (turn : Turn) (e : Event) : Prop :=
  Sequential crypto n turn e ∧ ¬ n.WritesBlock turn e

instance (crypto : Crypto) (n : Node) (turn : Turn) (e : Event) :
    Decidable (Untouched crypto n turn e) :=
  inferInstanceAs (Decidable (Sequential crypto n turn e ∧ ¬ n.WritesBlock turn e))

variable {crypto : Crypto} {Genesis : BlockStruct → Prop} {n : Node} {turn : Turn} {e : Event}

open Consensus (Caches Unwritten)

/-- **A turn that is not one of these writes to no object of a call.** -/
theorem unwritten_step (h : Caches crypto Genesis n.toConsensus)
    (hok : ¬ n.WritesBlock turn e) :
    Unwritten n.toConsensus (n.step crypto turn e).toConsensus := by
  obtain ⟨kind, hfrom, hmove⟩ : ∃ kind, Kind.from n turn e kind ∧ Move crypto _ kind _ :=
    n.step_moves turn e
  intro t ht
  have hobj := (h.suspended t ht).allocated
  generalize (n.step crypto turn e).toConsensus = c' at hmove ⊢
  cases hmove with
  | quiet => rfl
  | propose now pool => exact h.unwritten_alloc _ t ht
  | hold b hacc => exact h.unwritten_alloc b t ht
  | approve b now validator hacc => exact Consensus.objects_approve_of_lt b hobj
  | vote now origin hash sig =>
      obtain ⟨⟨_, _, _, data⟩, rfl, hdata, rfl, hval⟩ := hfrom
      obtain rfl : data = .signBlock hash sig := hdata
      exact Consensus.objects_processSignBlock_of_ne fun hvotable => hok ⟨hval, t, ht, hvotable⟩
  | confirm hash votes =>
      obtain ⟨⟨_, _, _, data⟩, rfl, hdata, hval⟩ := hfrom
      obtain rfl : data = .confirmBlock hash votes := hdata
      refine Consensus.objects_processConfirmBlock_of_same fun hblock hheld hhash => ?_
      by_contra hne
      exact hok ⟨hval, t, ht, hblock, hheld, hhash, fun heq => hne heq.symm⟩
  | fetch height =>
      rcases n.toConsensus.fetchSync_cases height with hstep | hstep
      · rw [hstep]
      · rw [hstep]
  | answer blocks =>
      rcases n.toConsensus.answerSync_cases blocks with hstep | hstep
      · rw [hstep]
      · rw [hstep]
  | continueSync => exact Consensus.objects_continueSync_of_lt hobj
  | drop => rfl
  | runCommand i t' oc ht' hp =>
      obtain ⟨i', t'', rfl, ht'', hp'⟩ := hfrom
      refine Consensus.objects_runCommand_of_unclamped hp fun hclamped => hok ?_
      exact ⟨t'', ht'', oc, hp', hclamped⟩
  | finish i t' answer chain ht' hp hc => rfl

/-! ## §6. Runs. -/

/-- **Every run of new processes, resets and turns** in which nothing is written to the
block of a call in flight, and no command that is replayed is clamped. -/
inductive Caching (crypto : Crypto) (publicKey : Text) (Genesis : BlockStruct → Prop) :
    Node → Prop where
  | boot (maxBlocks : Nat) :
      Caching crypto publicKey Genesis (start (Blockchain.fresh publicKey maxBlocks))
  /-- A new process over the store, even of a call that has not come to its end. -/
  | restart {n : Node} (h : Caching crypto publicKey Genesis n) {answers : Nat → Bool}
      {maxBlocks : Nat} {c : Blockchain}
      (hu : Unclamped Ledger.fresh (committedCommands n.chain.chain))
      (hc : n.chain.restart answers maxBlocks = some c) : Caching crypto publicKey Genesis (start c)
  | reset {n : Node} (h : Caching crypto publicKey Genesis n) (hidle : n.adds = [])
      {answers : Nat → Bool} {genesis : BlockStruct} {c : Blockchain} (hgenesis : Genesis genesis)
      (hu : Unclamped n.chain.clear.toLedger (commandsOf genesis.tx))
      (hc : n.chain.reset answers genesis = some c) :
      Caching crypto publicKey Genesis (n.setChain c)
  | turn {n : Node} (h : Caching crypto publicKey Genesis n) (turn : Turn) (e : Event)
      (hok : Untouched crypto n turn e) : Caching crypto publicKey Genesis (n.step crypto turn e)

theorem Caching.run {publicKey : Text} :
    ∀ {n : Node} {l : List (Turn × Event)}, Caching crypto publicKey Genesis n →
      Allowed crypto (Untouched crypto) n l → Caching crypto publicKey Genesis (n.run crypto l)
  | _, [], h, _ => h
  | n, x :: l, h, hl => by
      show Caching crypto publicKey Genesis ((n.step crypto x.1 x.2).run crypto l)
      exact Caching.run (h.turn x.1 x.2 hl.1) hl.2

theorem Caching.caches {publicKey : Text} (hG : ∀ b, Genesis b → b.height = 1)
    (h : Caching crypto publicKey Genesis n) : Caches crypto Genesis n.toConsensus := by
  induction h with
  | boot maxBlocks => exact Consensus.caches_start (Blockchain.agrees_fresh _ _ _)
  | restart _ hu hc ih =>
      exact Consensus.caches_start (.restart ih.agrees.keyed ih.agrees.hashed hu hc)
  | @reset n _ hidle _ genesis _ hgenesis hu hc ih =>
      have hagrees : Agrees crypto Genesis _ := .reset (hG genesis hgenesis) hgenesis hu hc
      refine ⟨ih.allocated, hagrees, ih.one, fun t ht => ?_⟩
      change t ∈ n.adds at ht
      rw [hidle] at ht
      exact nomatch ht
  | turn _ turn e hok ih =>
      obtain ⟨kind, -, hmove⟩ : ∃ kind, Kind.from _ turn e kind ∧ Move crypto _ kind _ :=
        step_moves _ turn e
      exact ih.move hmove hok.1 (unwritten_step ih hok.2)

/-- **Cache and store agree.**  In every such run each cached block, the latest one
included, is the stored one, and its transactions have its hash unless it is a genesis
block. -/
theorem cache_agrees {crypto : Crypto} {publicKey : Text} {Genesis : BlockStruct → Prop}
    (hG : ∀ b, Genesis b → b.height = 1) {n : Node} (h : Caching crypto publicKey Genesis n) :
    (∀ height b, n.chain.mapBlocks.get? height = some b →
        n.chain.dbBlockchain.get? height = some b ∧ (Hashed crypto b ∨ Genesis b))
      ∧ ∀ b, n.chain.latestBlock = some b →
          n.chain.dbBlockchain.get? n.chain.height = some b ∧ (Hashed crypto b ∨ Genesis b) := by
  have hagrees := (h.caches hG).agrees
  constructor
  · intro height b hb
    have hstored := hagrees.cached height b hb
    exact ⟨hstored, hagrees.hashed height b hstored⟩
  · intro b hb
    have hstored := hagrees.latest b hb
    exact ⟨hstored, hagrees.hashed _ b hstored⟩

/-! ## §7. A run. -/

open Blockchain (sampleStart sampleGenesis start_sampleStart proposalBlock proposalCrypto)

/-- A block of two stake proposals is confirmed and applied: the second block is cached. -/
theorem cache_agrees_of_sample :
    appliedOnce.chain.mapBlocks.has 2 = true
      ∧ ∀ height b, appliedOnce.chain.mapBlocks.get? height = some b →
          appliedOnce.chain.dbBlockchain.get? height = some b
            ∧ (Hashed (proposalCrypto ['a'] 12) b ∨ b = sampleGenesis) := by
  have hboot : Caching (proposalCrypto ['a'] 12) (keyOf 0) (fun b => b = sampleGenesis)
      (start (Blockchain.fresh (keyOf 0) 100)) := .boot 100
  have hunclamped : Unclamped (Blockchain.fresh (keyOf 0) 100).clear.toLedger
      (commandsOf sampleGenesis.tx) := by decide +kernel
  have hreset : Caching (proposalCrypto ['a'] 12) (keyOf 0) (fun b => b = sampleGenesis)
      (start (sampleStart 0)) := hboot.reset rfl (Eq.refl _) hunclamped start_sampleStart
  have hrun : Caching (proposalCrypto ['a'] 12) (keyOf 0) (fun b => b = sampleGenesis)
      appliedOnce := hreset.run (by decide +kernel)
  have hheight : ∀ b, b = sampleGenesis → b.height = 1 := by
    rintro b rfl
    rfl
  exact ⟨by decide +kernel, (cache_agrees hheight hrun).1⟩

end Node

end Divachain
