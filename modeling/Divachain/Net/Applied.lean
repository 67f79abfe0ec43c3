/-
  Divachain.Net.Applied — an accepted block is applied to its end, or not.

  Once a block has passed the guard of `add`, the commands are applied one by
  one and cannot fail.  What can fail is the stake vote at the end: it reads
  the first entry of a list without the own key, and the proposal it makes may
  send a transaction off, for which a validator is searched and a message
  broadcast, to peers the block may just have removed.

  Main results:
    * `stakeVote_propose_iff` — whom the stake vote proposes;
    * `updateCache_halted_iff` — when the end of `add` throws or hangs;
    * `add_returns_iff`, `adds_iff` — a call of `add` from where it is, or from its
      start, to its end;
    * `applied_completely_iff` — the calls of `add` in a run, one by one.
-/
import Divachain.Chain.Stepwise
import Divachain.Net.Startup
import Divachain.Net.Validator

namespace Divachain

open DataKit

namespace Blockchain

/-! ## §1. Whom the stake vote proposes. -/

/-- Nobody but the node itself comes before this peer in the tally. -/
def Favourite (tally : Text → Option Nat) (own publicKey : Text) : Prop :=
  publicKey ≠ own ∧ ∃ votes, tally publicKey = some votes
    ∧ ∀ k v, tally k = some v → k ≠ own → voteBefore (publicKey, votes) (k, v)

instance : Std.Total voteBefore := ⟨fun a b => by
  unfold voteBefore
  rcases Nat.lt_trichotomy a.2 b.2 with h | h | h
  · exact Or.inr (Or.inl h)
  · rcases le_total a.1 b.1 with h' | h'
    · exact Or.inr (Or.inr ⟨h.symm, h'⟩)
    · exact Or.inl (Or.inr ⟨h, h'⟩)
  · exact Or.inl (Or.inl h)⟩

instance : IsTrans (Text × Nat) voteBefore := ⟨fun a b c hab hbc => by
  unfold voteBefore at hab hbc ⊢
  rcases hab with hab | ⟨hab, hle⟩
  · rcases hbc with hbc | ⟨hbc, -⟩
    · exact Or.inl (by omega)
    · exact Or.inl (by omega)
  · rcases hbc with hbc | ⟨hbc, hle'⟩
    · exact Or.inl (by omega)
    · exact Or.inr ⟨by omega, hle'.trans hle⟩⟩

/-- Two entries that come before each other are one. -/
theorem voteBefore_antisymm {a b : Text × Nat} (h : voteBefore a b) (h' : voteBefore b a) :
    a = b := by
  unfold voteBefore at h h'
  rcases h with h | ⟨h, hle⟩
  · rcases h' with h' | ⟨h', -⟩
    · omega
    · omega
  · rcases h' with h' | ⟨-, hle'⟩
    · omega
    · exact Prod.ext (le_antisymm hle' hle) h

/-- The first entry of the sorted list comes before all of them. -/
theorem head_insertionSort_iff {l : List (Text × Nat)} {a : Text × Nat} :
    (l.insertionSort voteBefore).head? = some a ↔ a ∈ l ∧ ∀ x ∈ l, voteBefore a x := by
  have hperm := List.perm_insertionSort voteBefore l
  have hsorted := List.pairwise_insertionSort voteBefore l
  cases hvs : l.insertionSort voteBefore with
  | nil =>
    rw [hvs] at hperm
    rw [← hperm.nil_eq]
    simp
  | cons d rest =>
    rw [hvs] at hperm hsorted
    have hfirst : ∀ x ∈ l, voteBefore d x := by
      intro x hx
      rcases List.mem_cons.mp (hperm.mem_iff.mpr hx) with rfl | hx
      · exact refl_of voteBefore x
      · exact (List.pairwise_cons.mp hsorted).1 x hx
    have hmem : d ∈ l := hperm.mem_iff.mp List.mem_cons_self
    rw [List.head?_cons, Option.some.injEq]
    constructor
    · rintro rfl
      exact ⟨hmem, hfirst⟩
    · intro h
      exact voteBefore_antisymm (hfirst a h.1) (h.2 d hmem)

/-- There is one favourite at most. -/
theorem Favourite.unique {tally : Text → Option Nat} {own k k' : Text} (h : Favourite tally own k)
    (h' : Favourite tally own k') : k = k' := by
  obtain ⟨hne, votes, hvotes, hbefore⟩ := h
  obtain ⟨hne', votes', hvotes', hbefore'⟩ := h'
  have hsame := voteBefore_antisymm (hbefore k' votes' hvotes' hne') (hbefore' k votes hvotes hne)
  exact congrArg Prod.fst hsame

/-- The favourite is the one whose entry the code reads. -/
theorem favourite_iff {c : Blockchain} {publicKey : Text} :
    Favourite c.mapVoteStake.get? c.publicKey publicKey
      ↔ ∃ votes, ((c.mapVoteStake.entries.filter fun a => decide (a.1 ≠ c.publicKey)).insertionSort
        voteBefore).head? = some (publicKey, votes) := by
  have hmem : ∀ a, a ∈ (c.mapVoteStake.entries.filter fun a => decide (a.1 ≠ c.publicKey))
      ↔ c.mapVoteStake.get? a.1 = some a.2 ∧ a.1 ≠ c.publicKey := by
    intro a
    rw [List.mem_filter, OrdMap.get?_eq_some_iff, decide_eq_true_eq]
  unfold Favourite
  constructor
  · rintro ⟨hne, votes, hvotes, hbefore⟩
    refine ⟨votes, head_insertionSort_iff.mpr ⟨(hmem _).mpr ⟨hvotes, hne⟩, ?_⟩⟩
    intro x hx
    exact hbefore x.1 x.2 ((hmem x).mp hx).1 ((hmem x).mp hx).2
  · rintro ⟨votes, hhead⟩
    obtain ⟨hin, hbefore⟩ := head_insertionSort_iff.mp hhead
    obtain ⟨hvotes, hne⟩ := (hmem _).mp hin
    exact ⟨hne, votes, hvotes, fun k v hk hown => hbefore (k, v) ((hmem (k, v)).mpr ⟨hk, hown⟩)⟩

/-- **Whom the stake vote proposes**: the favourite, if the hash asks for a vote. -/
theorem stakeVote_propose_iff {c : Blockchain} {b : BlockStruct} {publicKey : Text} :
    c.stakeVote b = .propose publicKey
      ↔ ¬ FewSameChars b ∧ Favourite c.mapVoteStake.get? c.publicKey publicKey := by
  rw [favourite_iff]
  unfold stakeVote FewSameChars
  by_cases hsize : c.mapVoteStake.size = 0
  · -- without a tally nothing is sorted
    have hnil : c.mapVoteStake.entries = [] := List.length_eq_zero_iff.mp hsize
    rw [if_pos hsize, hnil]
    simp
  by_cases hchars : sameChars b.hash b.height < STAKE_VOTE_MATCH_THRESHOLD
  · rw [if_neg hsize, if_pos hchars]
    simp [hchars]
  rw [if_neg hsize, if_neg hchars]
  dsimp only
  cases (c.mapVoteStake.entries.filter fun a => decide (a.1 ≠ c.publicKey)).insertionSort
    voteBefore with
  | nil => simp
  | cons a rest =>
    obtain ⟨k, v⟩ := a
    simp [hchars]

/-- When no stake vote is taken. -/
theorem stakeVote_skip_iff {c : Blockchain} {b : BlockStruct} :
    c.stakeVote b = .skip ↔ FewSameChars b ∨ c.mapVoteStake.size = 0 := by
  unfold stakeVote FewSameChars
  by_cases hsize : c.mapVoteStake.size = 0
  · rw [if_pos hsize]
    exact iff_of_true rfl (Or.inr hsize)
  by_cases hchars : sameChars b.hash b.height < STAKE_VOTE_MATCH_THRESHOLD
  · rw [if_neg hsize, if_pos hchars]
    exact iff_of_true rfl (Or.inl hchars)
  rw [if_neg hsize, if_neg hchars]
  refine iff_of_false ?_ ?_
  · dsimp only
    split
    · exact fun h => nomatch h
    · exact fun h => nomatch h
  · exact fun h => h.elim hchars hsize

/-- **When the stake vote throws**: the own key has a tally and nobody else has. -/
theorem stakeVote_throws_iff {c : Blockchain} {b : BlockStruct} :
    c.stakeVote b = .throws
      ↔ ¬ FewSameChars b ∧ c.mapVoteStake.has c.publicKey = true
        ∧ ∀ k, c.mapVoteStake.has k = true → k = c.publicKey := by
  -- The list that is sorted is empty exactly when the table has no other peer.
  have hothers : (c.mapVoteStake.entries.filter fun a => decide (a.1 ≠ c.publicKey)) = []
      ↔ ∀ k, c.mapVoteStake.has k = true → k = c.publicKey := by
    rw [List.filter_eq_nil_iff]
    constructor
    · intro h k hk
      obtain ⟨a, ha, rfl⟩ := List.mem_map.mp ((OrdMap.has_iff _ _).mp hk)
      simpa using h a ha
    · intro h a ha
      have hk : c.mapVoteStake.has a.1 = true :=
        (OrdMap.has_iff _ _).mpr (List.mem_map_of_mem ha)
      simpa using h a.1 hk
  have hsome : (∀ k, c.mapVoteStake.has k = true → k = c.publicKey) →
      (c.mapVoteStake.size ≠ 0 ↔ c.mapVoteStake.has c.publicKey = true) := by
    intro h
    constructor
    · intro hsize
      obtain ⟨a, ha⟩ := List.exists_mem_of_length_pos (Nat.pos_of_ne_zero hsize)
      have hk : c.mapVoteStake.has a.1 = true :=
        (OrdMap.has_iff _ _).mpr (List.mem_map_of_mem ha)
      exact h a.1 hk ▸ hk
    · intro hown hsize
      have hnil : c.mapVoteStake.entries = [] := List.length_eq_zero_iff.mp hsize
      rw [OrdMap.has_iff, OrdMap.keys, hnil] at hown
      cases hown
  unfold stakeVote
  -- The two guards of the source, and then the first element of an empty list.
  by_cases hsize : c.mapVoteStake.size = 0
  · rw [if_pos hsize]
    constructor
    · intro h
      cases h
    · intro h
      exact absurd hsize ((hsome h.2.2).mpr h.2.1)
  by_cases hchars : sameChars b.hash b.height < STAKE_VOTE_MATCH_THRESHOLD
  · rw [if_neg hsize, if_pos hchars]
    constructor
    · intro h
      cases h
    · intro h
      exact absurd hchars h.1
  rw [if_neg hsize, if_neg hchars]
  dsimp only
  constructor
  · intro h
    split at h
    next hnil =>
      have hperm := List.perm_insertionSort voteBefore
        (c.mapVoteStake.entries.filter fun a => decide (a.1 ≠ c.publicKey))
      rw [hnil] at hperm
      have hall := hothers.mp hperm.nil_eq.symm
      exact ⟨hchars, (hsome hall).mp hsize, hall⟩
    next => cases h
  · intro h
    rw [hothers.mpr h.2.2]
    rfl

end Blockchain

namespace Node

variable (crypto : Crypto) {n : Node} (turn : Turn)

/-! ## §2. When a proposal throws or hangs. -/

/-- A stake proposal fills the queue, and its transaction can be sent off. -/
def Flushes (crypto : Crypto) (n : Node) (turn : Turn) (publicKey ident : Text) (stake : Int) :
    Prop :=
  let commands := n.stackModifyStake ++ [stakeCommand publicKey ident stake]
  n.proposeAnswer publicKey ident = true
    ∧ -(turn.countOnline : Int) < 3 * ((n.mapStakeCredit.get? publicKey).getD 0 - 1)
    ∧ turn.countOnline ≤ 3 * commands.length
    ∧ SendsOff crypto n turn (numbered commands) []

/-- **When a stake proposal throws or hangs.** -/
theorem proposeModifyStake_halted_iff (hrun : n.halted = false) (publicKey ident : Text)
    (stake : Int) :
    (n.proposeModifyStake crypto turn publicKey ident stake).halted = true
      ↔ Flushes crypto n turn publicKey ident stake ∧ ¬ n.Deliverable turn := by
  unfold proposeModifyStake Flushes
  dsimp only
  by_cases hanswer : n.proposeAnswer publicKey ident = true
  · by_cases hcredit : -(turn.countOnline : Int)
        < 3 * ((n.mapStakeCredit.get? publicKey).getD 0 - 1)
    · rw [if_pos hanswer, if_pos hcredit]
      set m := n.queueProposal publicKey ((n.mapStakeCredit.get? publicKey).getD 0 - 1)
        (stakeCommand publicKey ident stake) with hm
      by_cases hfull : turn.countOnline
          ≤ 3 * (n.stackModifyStake ++ [stakeCommand publicKey ident stake]).length
      · -- the queue is full, and what it holds is sent off as one transaction
        have hstack : (m.stackTx crypto turn m.stackModifyStake []).halted = true
            ↔ SendsOff crypto n turn (numbered (n.stackModifyStake ++ [stakeCommand publicKey ident
              stake])) [] ∧ ¬ n.Deliverable turn :=
          stack_halted_iff crypto m turn hrun _ []
        rw [if_pos (show turn.countOnline ≤ 3 * m.stackModifyStake.length from hfull),
          andThen_frame (f := clearProposals) _ halted fun _ => rfl, hstack]
        simp only [hanswer, hcredit, hfull, true_and]
      · rw [if_neg (show ¬ turn.countOnline ≤ 3 * m.stackModifyStake.length from hfull)]
        refine iff_of_false (fun h => Bool.false_ne_true (hrun.symm.trans h)) ?_
        exact fun h => hfull h.1.2.2.1
    · rw [if_pos hanswer, if_neg hcredit, hrun]
      exact iff_of_false Bool.false_ne_true fun h => hcredit h.1.2.1
  · rw [if_neg hanswer, hrun]
    exact iff_of_false Bool.false_ne_true fun h => hanswer h.1.1

/-! ## §3. When the end of `add` fails. -/

/-- How many votes of the block count for this peer. -/
def votesOf (n : Node) (b : BlockStruct) (k : Text) : Nat :=
  if n.chain.hasPeer k then (b.votes.map VoteStruct.origin).count k else 0

/-- What this peer has in the tally together with the votes of the block. -/
def tallyWith (n : Node) (b : BlockStruct) (k : Text) : Option Nat :=
  if n.votesOf b k = 0 then n.chain.mapVoteStake.get? k
  else some ((n.chain.mapVoteStake.get? k).getD 0 + n.votesOf b k)

/-- The node with this block as the last one of its chain. -/
def withLast (n : Node) (b : BlockStruct) : Node :=
  n.setChain { n.chain with height := b.height, latestBlock := some b }

/-- **The end of `add` is reached**: the hash asks for no vote, nobody has a
tally, or somebody else has one and what the proposal for the favourite sends
off, if anything, gets through. -/
def Completes (crypto : Crypto) (n : Node) (turn : Turn) (b : BlockStruct) : Prop :=
  Blockchain.FewSameChars b ∨ (∀ k, n.tallyWith b k = none)
    ∨ ∃ publicKey, Blockchain.Favourite (n.tallyWith b) n.chain.publicKey publicKey
      ∧ (Flushes crypto (n.withLast b) turn publicKey STAKE_VOTE_IDENT STAKE_VOTE_AMOUNT →
        (n.withLast b).Deliverable turn)

theorem get?_countVotes (l : Ledger) (k : Text) :
    ∀ (votes : List VoteStruct) (m : OrdMap Text Nat),
      let cast := if l.hasPeer k then (votes.map VoteStruct.origin).count k else 0
      (votes.foldl (Blockchain.countVote l) m).get? k
        = if cast = 0 then m.get? k else some ((m.get? k).getD 0 + cast)
  | [], m => by simp
  | v :: votes, m => by
      dsimp only
      rw [List.foldl_cons, get?_countVotes l k votes, List.map_cons, List.count_cons]
      unfold Blockchain.countVote
      -- a vote counts for its origin only, and only if that is a peer
      by_cases hk : v.origin = k
      · subst hk
        by_cases hpeer : l.hasPeer v.origin = true
        · rw [if_pos hpeer, if_pos hpeer, if_pos hpeer, OrdMap.get?_set_self]
          simp only [beq_self_eq_true, if_true, Option.getD_some]
          split
          · next hzero => rw [if_neg (by omega), hzero]
          · next => rw [if_neg (by omega), Option.some.injEq]; omega
        · simp [hpeer]
      · have hother : (if l.hasPeer v.origin then
            m.set v.origin ((m.get? v.origin).getD 0 + 1) else m).get? k = m.get? k := by
          split
          · exact OrdMap.get?_set_ne m _ (Ne.symm hk)
          · rfl
        rw [hother]
        simp [hk]

/-- **The tally at the stake vote** is the one before with the votes of the block. -/
theorem get?_tally (n : Node) (b : BlockStruct) :
    (n.chain.countVotes b).mapVoteStake.get? = n.tallyWith b :=
  funext fun k => get?_countVotes n.chain.toLedger k b.votes n.chain.mapVoteStake

/-- The chain at the moment of the stake vote: the block is cached already. -/
def atVote (n : Node) (b : BlockStruct) : Node :=
  n.setChain ((n.chain.cacheBlock b).countVotes b)

theorem atVote_propose_iff {b : BlockStruct} {publicKey : Text} :
    (n.atVote b).chain.stakeVote b = .propose publicKey
      ↔ ¬ Blockchain.FewSameChars b
        ∧ Blockchain.Favourite (n.tallyWith b) n.chain.publicKey publicKey := by
  rw [← get?_tally]
  exact Blockchain.stakeVote_propose_iff

theorem atVote_skip_iff {b : BlockStruct} :
    (n.atVote b).chain.stakeVote b = .skip
      ↔ Blockchain.FewSameChars b ∨ ∀ k, n.tallyWith b k = none := by
  refine Blockchain.stakeVote_skip_iff.trans (or_congr_right ?_)
  rw [← get?_tally]
  constructor
  · intro hsize k
    have hnil : (n.chain.countVotes b).mapVoteStake.entries = [] := List.length_eq_zero_iff.mp hsize
    rw [OrdMap.get?_eq_none_iff]
    show k ∉ (n.chain.countVotes b).mapVoteStake.entries.map Prod.fst
    rw [hnil]
    exact List.not_mem_nil
  · intro hnone
    refine List.length_eq_zero_iff.mpr (List.eq_nil_iff_forall_not_mem.mpr fun a ha => ?_)
    have hsome : (n.chain.countVotes b).mapVoteStake.get? a.1 = some a.2 :=
      (OrdMap.get?_eq_some_iff _ _ _).mpr ha
    exact nomatch (hnone a.1).symm.trans hsome

/-- Where the stake vote throws, nobody but the node itself has a tally. -/
theorem atVote_throws {b : BlockStruct} (h : (n.atVote b).chain.stakeVote b = .throws) :
    ¬ Blockchain.FewSameChars b ∧ (∃ votes, n.tallyWith b n.chain.publicKey = some votes)
      ∧ ∀ publicKey, ¬ Blockchain.Favourite (n.tallyWith b) n.chain.publicKey publicKey := by
  obtain ⟨hchars, hown, halone⟩ := Blockchain.stakeVote_throws_iff.mp h
  rw [← get?_tally]
  refine ⟨hchars, Option.isSome_iff_exists.mp hown, ?_⟩
  rintro publicKey ⟨hne, votes, hvotes, -⟩
  exact hne (halone publicKey (Option.isSome_iff_exists.mpr ⟨votes, hvotes⟩))

/-- What follows the proposal of the stake vote does not fail. -/
theorem settleVote_propose_halted (n : Node) (publicKey : Text) :
    (n.settleVote crypto turn (.propose publicKey)).halted
      = (n.proposeModifyStake crypto turn publicKey STAKE_VOTE_IDENT STAKE_VOTE_AMOUNT).halted := by
  unfold settleVote
  dsimp only
  rw [andThen_frame _ halted]
  intro m
  split
  · rfl
  · rfl

/-- **When the end of `add` throws or hangs.** -/
theorem updateCache_halted_iff (hrun : n.halted = false) (b : BlockStruct) :
    (n.updateCache crypto turn b).halted = true ↔ ¬ Completes crypto n turn b := by
  show ((n.atVote b).settleVote crypto turn ((n.atVote b).chain.stakeVote b)).halted = true ↔ _
  unfold Completes
  cases hvote : (n.atVote b).chain.stakeVote b with
  | skip =>
    -- no vote is asked for, or there is nobody to vote for
    refine iff_of_false (fun h => Bool.false_ne_true (hrun.symm.trans h)) ?_
    rw [not_not, ← or_assoc]
    exact Or.inl (atVote_skip_iff.mp hvote)
  | throws =>
    obtain ⟨hchars, ⟨own, hown⟩, halone⟩ := atVote_throws hvote
    refine iff_of_true rfl ?_
    rintro (hfew | hnone | ⟨publicKey, hfavourite, -⟩)
    · exact hchars hfew
    · exact nomatch (hnone _).symm.trans hown
    · exact halone publicKey hfavourite
  | propose publicKey =>
    obtain ⟨hchars, hfavourite⟩ := atVote_propose_iff.mp hvote
    have hhalts := proposeModifyStake_halted_iff crypto (n := n.atVote b) turn hrun
      publicKey STAKE_VOTE_IDENT STAKE_VOTE_AMOUNT
    rw [settleVote_propose_halted, hhalts]
    constructor
    · rintro ⟨hflush, hlost⟩ (hfew | hnone | ⟨k, hk, hfound⟩)
      · exact hchars hfew
      · obtain ⟨-, votes, hvotes, -⟩ := hfavourite
        exact nomatch (hnone _).symm.trans hvotes
      · obtain rfl := hk.unique hfavourite
        exact hlost (hfound hflush)
    · intro hfails
      by_contra hfine
      refine hfails (Or.inr (Or.inr ⟨publicKey, hfavourite, ?_⟩))
      intro hflush
      by_contra hlost
      exact hfine ⟨hflush, hlost⟩

/-- **The stake vote does not fail** if somebody else has a tally. -/
theorem completes_of_somebody {crypto : Crypto} {turn : Turn} {b : BlockStruct} {k : Text}
    (hsends : Blockchain.FewSameChars b ∨ (n.withLast b).Deliverable turn)
    (hk : k ≠ n.chain.publicKey) (htally : n.tallyWith b k ≠ none) : Completes crypto n turn b := by
  rcases hsends with hfew | hdelivers
  · exact Or.inl hfew
  cases hvote : (n.atVote b).chain.stakeVote b with
  | skip =>
      rcases atVote_skip_iff.mp hvote with hfew | hnone
      · exact Or.inl hfew
      · exact absurd (hnone k) htally
  | throws =>
      obtain ⟨-, -, halone⟩ := Blockchain.stakeVote_throws_iff.mp hvote
      refine absurd (halone k ?_) hk
      show ((n.chain.countVotes b).mapVoteStake.get? k).isSome = true
      rw [get?_tally]
      exact Option.isSome_iff_ne_none.mpr htally
  | propose publicKey =>
      exact Or.inr (Or.inr ⟨publicKey, (atVote_propose_iff.mp hvote).2, fun _ => hdelivers⟩)

/-- ... as it has if it is a peer and has voted for this block. -/
theorem completes_of_voter {crypto : Crypto} {turn : Turn} {b : BlockStruct} {k : Text}
    (hsends : Blockchain.FewSameChars b ∨ (n.withLast b).Deliverable turn)
    (hk : k ≠ n.chain.publicKey) (hvoted : k ∈ b.votes.map VoteStruct.origin)
    (hpeer : n.chain.hasPeer k = true) : Completes crypto n turn b := by
  refine completes_of_somebody hsends hk ?_
  have hvotes : n.votesOf b k ≠ 0 := by
    unfold votesOf
    rw [if_pos hpeer]
    exact Nat.ne_of_gt (List.count_pos_iff.mpr hvoted)
  unfold tallyWith
  rw [if_neg hvotes]
  exact Option.some_ne_none _

/-! ## §4. One call. -/

/-- The call goes on: its next command is applied, or `add` returns true. -/
structure Proceeds (crypto : Crypto) (n : Node) (turn : Turn) (i : Nat) (t : AddTask) : Prop where
  command : n.pending t ≠ none → (n.step crypto turn (.resumeAdd i)).halted = false
    ∧ (n.step crypto turn (.resumeAdd i)).adds[i]? = some { t with pos := t.pos + 1 }
  returns : n.pending t = none →
    (n.step crypto turn (.resumeAdd i)).committed = n.committed ++ [t.stored]

/-- The last turn of a call: `add` returns true unless its stake vote fails. -/
theorem finishAdd_committed_iff (hrun : n.halted = false) (i : Nat) (t : AddTask) :
    (n.finishAdd crypto turn i t).committed = n.committed ++ [t.stored]
      ↔ Completes crypto n turn (n.objects t.obj) := by
  have hhalts := updateCache_halted_iff crypto turn hrun (n.objects t.obj)
  unfold finishAdd
  dsimp only
  split
  next hhalt =>
    refine iff_of_false ?_ (hhalts.mp hhalt)
    intro h
    have hlength := congrArg List.length h
    rw [List.length_append] at hlength
    exact absurd hlength (by simp)
  next hgoes =>
    refine iff_of_true ?_ (not_not.mp fun h => hgoes (hhalts.mpr h))
    have hcore := n.updateCache_toConsensus turn (Bool.eq_false_iff.mpr hgoes)
    obtain ⟨answer, chain, -, hcore⟩ := hcore
    have harm : ∀ m : Node, ({ m with timeoutAddTx := true } : Node).toConsensus = m.toConsensus :=
      fun _ => rfl
    rw [andThen_toConsensus _ harm, calcValidator_toConsensus]
    show (n.updateCache crypto turn (n.objects t.obj)).committed ++ [t.stored] = _
    rw [hcore]

/-- A turn that resumes a call with a command left applies it. -/
theorem resumeAdd_some (hrun : n.halted = false) {i : Nat} {t : AddTask} {oc : Text × Command}
    (ht : n.adds[i]? = some t) (hp : n.pending t = some oc) :
    n.step crypto turn (.resumeAdd i)
      = { n with
          toConsensus := n.toConsensus.runCommand i t oc
          mapStakeCredit := n.credited oc.1 oc.2 } := by
  rw [step_of_running crypto hrun, react, resumeAdd, ht]
  dsimp only
  rw [hp]

/-- A turn that resumes a call without one ends it. -/
theorem resumeAdd_none (hrun : n.halted = false) {i : Nat} {t : AddTask}
    (ht : n.adds[i]? = some t) (hp : n.pending t = none) :
    n.step crypto turn (.resumeAdd i) = n.finishAdd crypto turn i t := by
  rw [step_of_running crypto hrun, react, resumeAdd, ht]
  dsimp only
  rw [hp]

/-- **One call of `add` goes on** unless it has come to a stake vote that fails. -/
theorem proceeds_iff (hrun : n.halted = false) {i : Nat} {t : AddTask} (ht : n.adds[i]? = some t) :
    Proceeds crypto n turn i t
      ↔ (n.pending t = none → Completes crypto n turn (n.objects t.obj)) := by
  cases hp : n.pending t with
  | some oc =>
    have hstep := resumeAdd_some crypto turn hrun ht hp
    refine iff_of_true ⟨fun _ => ?_, fun h => nomatch hp.symm.trans h⟩ fun h => nomatch h
    rw [hstep]
    refine ⟨hrun, ?_⟩
    show (n.adds.set i _)[i]? = _
    rw [List.getElem?_set_self (List.getElem?_eq_some_iff.mp ht).1]
  | none =>
    have hstep := resumeAdd_none crypto turn hrun ht hp
    have hfinish := finishAdd_committed_iff crypto turn hrun i t
    constructor
    · intro h _
      have hcommitted := h.returns hp
      rw [hstep] at hcommitted
      exact hfinish.mp hcommitted
    · intro h
      refine ⟨fun hne => absurd hp hne, fun _ => ?_⟩
      rw [hstep]
      exact hfinish.mpr (h rfl)

/-! ## §5. A whole call. -/

/-- How many commands the call has still to apply. -/
def remaining (n : Node) (t : AddTask) : Nat := (commandsOf (n.objects t.obj).tx).length - t.pos

theorem pending_eq_none_iff {t : AddTask} : n.pending t = none ↔ n.remaining t = 0 := by
  unfold Consensus.pending remaining
  rw [List.getElem?_eq_none_iff]
  omega

/-- The call has applied `k` commands more, and nothing else has happened. -/
structure Applies (i k : Nat) (t : AddTask) (n m : Node) : Prop where
  running : m.halted = false
  task : m.adds[i]? = some { t with pos := t.pos + k }
  committed : m.committed = n.committed
  arrayNetwork : m.arrayNetwork = n.arrayNetwork
  chain : m.chain = n.chain.setLedger m.chain.toLedger
  object : m.objects t.obj = { n.objects t.obj with tx := (m.objects t.obj).tx }
  written : (m.chain.toLedger, (m.objects t.obj).tx)
    = (List.range' t.pos k).foldl Ledger.writeAt (n.chain.toLedger, (n.objects t.obj).tx)

theorem applies_zero (hrun : n.halted = false) {i : Nat} {t : AddTask} (ht : n.adds[i]? = some t) :
    Applies i 0 t n n :=
  ⟨hrun, ht, rfl, rfl, rfl, rfl, rfl⟩

/-- First one command, then the others. -/
theorem Applies.cons {i k : Nat} {t : AddTask} {n m p : Node} (h : Applies i 1 t n m)
    (hrest : Applies i k { t with pos := t.pos + 1 } m p) : Applies i (k + 1) t n p where
  running := hrest.running
  task := by
    rw [hrest.task]
    show some ({ t with pos := t.pos + 1 + k } : AddTask) = some { t with pos := t.pos + (k + 1) }
    rw [Nat.add_assoc, Nat.add_comm 1 k]
  committed := hrest.committed.trans h.committed
  arrayNetwork := hrest.arrayNetwork.trans h.arrayNetwork
  chain := by
    rw [hrest.chain, h.chain]
    rfl
  object := by
    have hobject : p.objects t.obj = { m.objects t.obj with tx := (p.objects t.obj).tx } :=
      hrest.object
    rw [hobject, h.object]
  written := by
    have hfirst := h.written
    rw [List.range'_one, List.foldl_cons, List.foldl_nil] at hfirst
    rw [List.range'_succ, List.foldl_cons, ← hfirst]
    exact hrest.written

/-- A write leaves as many commands as there were. -/
theorem length_commandsOf_setCommandOf (tx : List TransactionStruct) (k : Nat) (c : Command) :
    (commandsOf (setCommandOf tx k c)).length = (commandsOf tx).length := by
  obtain ⟨o, hset⟩ := commandsOf_setCommandOf tx k c
  rw [hset, List.length_set]

/-- A turn that applies a command brings the call one command closer to its end. -/
theorem resumeAdd_command (hrun : n.halted = false) {i : Nat} {t : AddTask}
    (ht : n.adds[i]? = some t) (hp : n.pending t ≠ none) :
    let m := n.step crypto turn (.resumeAdd i)
    Applies i 1 t n m ∧ m.remaining { t with pos := t.pos + 1 } + 1 = n.remaining t := by
  obtain ⟨oc, hoc⟩ := Option.ne_none_iff_exists'.mp hp
  have hstep := resumeAdd_some crypto turn hrun ht hoc
  -- the command written back takes the place of the one applied
  have hobject : (n.toConsensus.runCommand i t oc).objects t.obj
      = { n.objects t.obj with
          tx := setCommandOf (n.objects t.obj).tx t.pos
            (n.chain.toLedger.processCommand oc.1 oc.2).2 } := Function.update_self ..
  have hpos : n.remaining t ≠ 0 := fun h => hp (pending_eq_none_iff.mpr h)
  dsimp only
  rw [hstep]
  refine ⟨⟨hrun, ?_, rfl, rfl, rfl, ?_, ?_⟩, ?_⟩
  · show (n.adds.set i _)[i]? = _
    rw [List.getElem?_set_self (List.getElem?_eq_some_iff.mp ht).1]
  · show (n.toConsensus.runCommand i t oc).objects t.obj = _
    rw [hobject]
  · show (_, ((n.toConsensus.runCommand i t oc).objects t.obj).tx) = _
    rw [hobject, List.range'_one, List.foldl_cons, List.foldl_nil]
    unfold Ledger.writeAt
    dsimp only
    rw [show (commandsOf (n.objects t.obj).tx)[t.pos]? = some oc from hoc]
    rfl
  · unfold remaining at hpos ⊢
    dsimp only
    rw [hobject]
    dsimp only
    rw [length_commandsOf_setCommandOf]
    omega

/-- **The commands of a block are applied to the last one**, one each turn. -/
theorem run_resumeAdd {i : Nat} :
    ∀ {turns : List Turn} {n : Node} {t : AddTask}, n.halted = false → n.adds[i]? = some t →
      n.remaining t = turns.length →
        let m := n.run crypto (turns.map fun turn => (turn, .resumeAdd i))
        Applies i turns.length t n m ∧ m.pending { t with pos := t.pos + turns.length } = none
  | [], n, t, hrun, ht, hlength => ⟨applies_zero hrun ht, pending_eq_none_iff.mpr hlength⟩
  | turn :: turns, n, t, hrun, ht, hlength => by
      have hp : n.pending t ≠ none := by
        intro h
        rw [pending_eq_none_iff.mp h, List.length_cons] at hlength
        omega
      obtain ⟨happlies, hremaining⟩ := resumeAdd_command crypto turn hrun ht hp
      rw [List.length_cons] at hlength
      have hless : (n.step crypto turn (.resumeAdd i)).remaining { t with pos := t.pos + 1 }
          = turns.length := by omega
      obtain ⟨hrest, hnone⟩ := run_resumeAdd happlies.running happlies.task hless
      refine ⟨happlies.cons hrest, ?_⟩
      rw [List.length_cons, Nat.add_comm turns.length 1, ← Nat.add_assoc]
      exact hnone

/-- **A call of `add` returns true** on its last turn, unless its stake vote fails. -/
theorem add_returns_iff {turns : List Turn} (turn : Turn) {i : Nat} {t : AddTask}
    (hrun : n.halted = false) (ht : n.adds[i]? = some t) (hlength : n.remaining t = turns.length) :
    let m := n.run crypto (turns.map fun turn => (turn, .resumeAdd i))
    (m.step crypto turn (.resumeAdd i)).committed = n.committed ++ [t.stored]
      ↔ Completes crypto m turn (m.objects t.obj) := by
  obtain ⟨happlies, hnone⟩ := run_resumeAdd crypto hrun ht hlength
  have hproceeds := proceeds_iff crypto turn happlies.running happlies.task
  dsimp only
  rw [← happlies.committed]
  constructor
  · intro h
    exact hproceeds.mp ⟨fun hne => absurd hnone hne, fun _ => h⟩ hnone
  · intro h
    exact (hproceeds.mpr fun _ => h).returns hnone

/-! ## §6. A whole call, from its start. -/

/-- The turns that resume the `i`-th call. -/
def resuming (i : Nat) (turns : List Turn) : List (Turn × Event) :=
  turns.map fun turn => (turn, .resumeAdd i)

/-- The last turn comes behind the others. -/
theorem run_resuming_concat (i : Nat) (turns : List Turn) (turn : Turn) :
    n.run crypto (resuming i (turns ++ [turn]))
      = (n.run crypto (resuming i turns)).step crypto turn (.resumeAdd i) := by
  rw [resuming, List.map_append]
  exact List.foldl_append ..

/-- A call that has just started has all commands of its block before it. -/
theorem remaining_of_start {t : AddTask} (hpos : t.pos = 0) (hobject : n.objects t.obj = t.stored) :
    n.remaining t = (commandsOf t.stored.tx).length := by
  unfold remaining
  rw [hobject, hpos, Nat.sub_zero]

/-- **All commands of a call have been applied**, and nothing else has happened. -/
structure AllApplied (i : Nat) (t : AddTask) (n m : Node) : Prop where
  running : m.halted = false
  task : m.adds[i]? = some { t with pos := (commandsOf t.stored.tx).length }
  pending : m.pending { t with pos := (commandsOf t.stored.tx).length } = none
  committed : m.committed = n.committed
  arrayNetwork : m.arrayNetwork = n.arrayNetwork
  chain : m.chain = n.chain.setLedger (n.chain.toLedger.processState t.stored.tx).1
  object : m.objects t.obj
    = { t.stored with tx := (n.chain.toLedger.processState t.stored.tx).2 }

/-- Command after command comes to one pass of `processState`. -/
theorem allApplied {turns : List Turn} {i : Nat} {t : AddTask} (hrun : n.halted = false)
    (ht : n.adds[i]? = some t) (hpos : t.pos = 0) (hobject : n.objects t.obj = t.stored)
    (hlength : turns.length = (commandsOf t.stored.tx).length) :
    AllApplied i t n (n.run crypto (resuming i turns)) := by
  obtain ⟨happlies, hnone⟩ := run_resumeAdd crypto hrun ht
    ((remaining_of_start hpos hobject).trans hlength.symm)
  rw [hpos, hlength, Nat.zero_add] at hnone
  have htask := happlies.task
  rw [hpos, hlength, Nat.zero_add] at htask
  have hwritten := happlies.written
  rw [hobject, hpos, hlength, ← List.range_eq_range', Ledger.foldl_writeAt] at hwritten
  obtain ⟨hledger, htx⟩ := Prod.ext_iff.mp hwritten
  dsimp only at hledger htx
  refine ⟨happlies.running, htask, hnone, happlies.committed, happlies.arrayNetwork, ?_, ?_⟩
  · rw [← hledger]
    exact happlies.chain
  · have hfinal := happlies.object
    rw [hobject] at hfinal
    rw [← htx]
    exact hfinal

/-- **The `i`-th call returns true for this block** on the last of these turns. -/
def Adds (crypto : Crypto) (n : Node) (i : Nat) (turns : List Turn) (b : BlockStruct) : Prop :=
  (n.run crypto (resuming i turns)).committed = n.committed ++ [b]

/-- The node once this command is applied, as far as the end of `add` reads it. -/
def withCommand (n : Node) (oc : Text × Command) : Node :=
  { n with
    chain := n.chain.setLedger (n.chain.toLedger.processCommand oc.1 oc.2).1
    mapStakeCredit := n.credited oc.1 oc.2 }

/-- The node once all commands of the block are applied. -/
def withCommands (n : Node) (b : BlockStruct) : Node := (commandsOf b.tx).foldl withCommand n

/-- What the end of `add` reads of a node is the same. -/
structure VotesAlike (n m : Node) : Prop where
  ledger : m.chain.toLedger = n.chain.toLedger
  publicKey : m.chain.publicKey = n.chain.publicKey
  mapVoteStake : m.chain.mapVoteStake = n.chain.mapVoteStake
  arrayNetwork : m.arrayNetwork = n.arrayNetwork
  mapStakeCredit : m.mapStakeCredit = n.mapStakeCredit
  stackModifyStake : m.stackModifyStake = n.stackModifyStake
  ownTx : m.ownTx = n.ownTx

namespace VotesAlike

variable {m : Node}

theorem refl (n : Node) : VotesAlike n n := ⟨rfl, rfl, rfl, rfl, rfl, rfl, rfl⟩

theorem hasPeer (h : VotesAlike n m) (k : Text) : m.chain.hasPeer k = n.chain.hasPeer k :=
  congrArg (fun l : Ledger => l.hasPeer k) h.ledger

/-- Nodes that are alike apply a command alike. -/
theorem withCommand (h : VotesAlike n m) (oc : Text × Command) :
    VotesAlike (n.withCommand oc) (m.withCommand oc) where
  ledger := by
    show (m.chain.toLedger.processCommand oc.1 oc.2).1
      = (n.chain.toLedger.processCommand oc.1 oc.2).1
    rw [h.ledger]
  publicKey := h.publicKey
  mapVoteStake := h.mapVoteStake
  arrayNetwork := h.arrayNetwork
  mapStakeCredit := by
    show m.credited oc.1 oc.2 = n.credited oc.1 oc.2
    unfold credited
    rw [h.publicKey, h.mapStakeCredit, h.ledger]
  stackModifyStake := h.stackModifyStake
  ownTx := h.ownTx

theorem foldl_withCommand :
    ∀ {n m : Node} (l : List (Text × Command)), VotesAlike n m →
      VotesAlike (l.foldl Node.withCommand n) (l.foldl Node.withCommand m)
  | _, _, [], h => h
  | _, _, oc :: l, h => foldl_withCommand l (h.withCommand oc)

/-- What such nodes send gets through alike. -/
theorem deliverable_iff (h : VotesAlike n m) (b : BlockStruct) (tx : List TransactionStruct) :
    (m.withLast { b with tx := tx }).Deliverable turn ↔ (n.withLast b).Deliverable turn := by
  set m' := m.withLast { b with tx := tx } with hm
  set n' := n.withLast b with hn
  have hkey : m'.chain.publicKey = n'.chain.publicKey := h.publicKey
  have harray : m'.arrayNetwork = n'.arrayNetwork := h.arrayNetwork
  have honline : m'.isOnline turn = n'.isOnline turn := by
    funext k
    unfold isOnline
    rw [hkey]
  have hfirst : ∀ online, m'.firstIndex online = n'.firstIndex online := by
    intro online
    unfold firstIndex
    rw [harray]
    rfl
  have hfinds : ∀ online, m'.findValidator online = n'.findValidator online := by
    intro online
    unfold findValidator
    rw [hfirst, harray]
  have hbroadcast : m'.canBroadcast = n'.canBroadcast := by
    have hsame : ∀ pk, m'.chain.hasPeer pk = n'.chain.hasPeer pk := h.hasPeer
    unfold canBroadcast
    rw [harray, hkey]
    simp only [hsame]
  unfold Deliverable
  rw [← search_isSome_iff, ← search_isSome_iff, ← findValidator_eq_search,
    ← findValidator_eq_search, hfinds, honline, hbroadcast, hkey]

/-- Such nodes stack and flush alike. -/
theorem flushes_iff (h : VotesAlike n m) (b : BlockStruct) (tx : List TransactionStruct)
    (publicKey ident : Text) (stake : Int) :
    Flushes crypto (m.withLast { b with tx := tx }) turn publicKey ident stake
      ↔ Flushes crypto (n.withLast b) turn publicKey ident stake := by
  set m' := m.withLast { b with tx := tx } with hm
  set n' := n.withLast b with hn
  have hkey : m'.chain.publicKey = n'.chain.publicKey := h.publicKey
  have hledger : m'.chain.toLedger = n'.chain.toLedger := h.ledger
  have hstack : m'.stackModifyStake = n'.stackModifyStake := h.stackModifyStake
  have hcredit : m'.mapStakeCredit = n'.mapStakeCredit := h.mapStakeCredit
  have hslot : m'.ownTx = n'.ownTx := h.ownTx
  have hheight : m'.chain.height = n'.chain.height := rfl
  unfold Flushes SendsOff signTx proposeAnswer
  dsimp only
  rw [hstack, hcredit, hledger, hkey, hheight, hslot]

/-- **Nodes that are alike take the stake vote of a block alike**, whatever has been
written to its commands. -/
theorem completes_iff (h : VotesAlike n m) (b : BlockStruct) (tx : List TransactionStruct) :
    Completes crypto m turn { b with tx := tx } ↔ Completes crypto n turn b := by
  have htally : m.tallyWith { b with tx := tx } = n.tallyWith b := by
    funext k
    unfold tallyWith votesOf
    rw [h.hasPeer, h.mapVoteStake]
  unfold Completes
  rw [htally, h.publicKey, h.deliverable_iff turn b tx]
  simp only [h.flushes_iff crypto turn b tx]
  exact Iff.rfl

end VotesAlike

/-- A turn that applies a command does what `withCommand` says. -/
theorem votesAlike_resumeAdd {a : Node} (h : VotesAlike a n) (hrun : n.halted = false) {i : Nat}
    {t : AddTask} {oc : Text × Command} (ht : n.adds[i]? = some t) (hp : n.pending t = some oc) :
    VotesAlike (a.withCommand oc) (n.step crypto turn (.resumeAdd i)) := by
  rw [resumeAdd_some crypto turn hrun ht hp]
  have happlied := h.withCommand oc
  exact ⟨happlied.ledger, happlied.publicKey, happlied.mapVoteStake, happlied.arrayNetwork,
    happlied.mapStakeCredit, happlied.stackModifyStake, happlied.ownTx⟩

/-- So do all of them. -/
theorem votesAlike_run {i : Nat} :
    ∀ {turns : List Turn} {n a : Node} {t : AddTask}, VotesAlike a n → n.halted = false →
      n.adds[i]? = some t → n.remaining t = turns.length →
        VotesAlike (((commandsOf (n.objects t.obj).tx).drop t.pos).foldl withCommand a)
          (n.run crypto (resuming i turns))
  | [], n, a, t, halike, hrun, ht, hlength => by
      have hlast : (commandsOf (n.objects t.obj).tx).length ≤ t.pos :=
        Nat.le_of_sub_eq_zero hlength
      rw [List.drop_eq_nil_of_le hlast]
      exact halike
  | turn :: turns, n, a, t, halike, hrun, ht, hlength => by
      have hp : n.pending t ≠ none := by
        intro h
        rw [pending_eq_none_iff.mp h, List.length_cons] at hlength
        omega
      obtain ⟨oc, hoc⟩ := Option.ne_none_iff_exists'.mp hp
      obtain ⟨happlies, hremaining⟩ := resumeAdd_command crypto turn hrun ht hp
      rw [List.length_cons] at hlength
      have hstep := votesAlike_resumeAdd crypto turn halike hrun ht hoc
      have hrest := votesAlike_run hstep happlies.running happlies.task
        (show _ = turns.length by omega)
      -- the commands behind the one applied are where they were
      have hbehind : (commandsOf ((n.step crypto turn (.resumeAdd i)).objects t.obj).tx).drop
          (t.pos + 1) = (commandsOf (n.objects t.obj).tx).drop (t.pos + 1) := by
        rw [resumeAdd_some crypto turn hrun ht hoc]
        show (commandsOf ((n.toConsensus.runCommand i t oc).objects t.obj).tx).drop _ = _
        rw [show (n.toConsensus.runCommand i t oc).objects t.obj = { n.objects t.obj with
          tx := setCommandOf (n.objects t.obj).tx t.pos
            (n.chain.toLedger.processCommand oc.1 oc.2).2 } from Function.update_self ..]
        obtain ⟨o, hset⟩ := commandsOf_setCommandOf (n.objects t.obj).tx t.pos
          (n.chain.toLedger.processCommand oc.1 oc.2).2
        rw [hset, List.drop_set_of_lt (Nat.lt_succ_self _)]
      have hhead : (commandsOf (n.objects t.obj).tx).drop t.pos
          = oc :: (commandsOf (n.objects t.obj).tx).drop (t.pos + 1) :=
        List.drop_eq_getElem?_toList_append.trans (by rw [show
          (commandsOf (n.objects t.obj).tx)[t.pos]? = some oc from hoc]; rfl)
      rw [hhead]
      rw [hbehind] at hrest
      exact hrest

/-- **A call that has just started returns true** with its last turn, unless the
stake vote of the block fails. -/
theorem adds_iff {turns : List Turn} (turn : Turn) {i : Nat} {t : AddTask} {a : Node}
    (halike : VotesAlike a n) (hrun : n.halted = false) (ht : n.adds[i]? = some t)
    (hpos : t.pos = 0) (hobject : n.objects t.obj = t.stored)
    (hlength : (commandsOf t.stored.tx).length = turns.length) :
    Adds crypto n i (turns ++ [turn]) t.stored
      ↔ Completes crypto (a.withCommands t.stored) turn t.stored := by
  have hremaining : n.remaining t = turns.length :=
    (remaining_of_start hpos hobject).trans hlength
  have hreturns := add_returns_iff crypto turn hrun ht hremaining
  have hsame := votesAlike_run crypto halike hrun ht hremaining
  obtain ⟨happlies, -⟩ := run_resumeAdd crypto hrun ht hremaining
  have hfields := happlies.object
  rw [hobject] at hfields
  rw [hobject, hpos, List.drop_zero] at hsame
  unfold Adds
  rw [run_resuming_concat]
  refine hreturns.trans ?_
  rw [hfields]
  exact hsame.completes_iff crypto turn t.stored _

/-! ## §7. All calls of a run. -/

/-- If this turn resumes a call of `add`, the call goes on. -/
def GoesOn (crypto : Crypto) (n : Node) (x : Turn × Event) : Prop :=
  ∀ i t, x.2 = .resumeAdd i → n.halted = false → n.adds[i]? = some t → Proceeds crypto n x.1 i t

/-- If this turn takes a call of `add` to its stake vote, the vote does not fail. -/
def VotesWell (crypto : Crypto) (n : Node) (x : Turn × Event) : Prop :=
  ∀ i t, x.2 = .resumeAdd i → n.halted = false → n.adds[i]? = some t → n.pending t = none →
    Completes crypto n x.1 (n.objects t.obj)

/-- **Blocks are applied completely in a run if and only if** no stake vote of
the run fails. -/
theorem applied_completely_iff (crypto : Crypto) (chain : Blockchain) (l : List (Turn × Event)) :
    (∀ k x, l[k]? = some x → GoesOn crypto ((start chain).run crypto (l.take k)) x)
      ↔ ∀ k x, l[k]? = some x → VotesWell crypto ((start chain).run crypto (l.take k)) x := by
  have hstep : ∀ (n : Node) (x : Turn × Event), GoesOn crypto n x ↔ VotesWell crypto n x := by
    intro n x
    unfold GoesOn VotesWell
    refine forall_congr' fun i => forall_congr' fun t => forall_congr' fun hx =>
      forall_congr' fun hrun => forall_congr' fun ht => ?_
    exact proceeds_iff crypto x.1 hrun ht
  refine forall_congr' fun k => forall_congr' fun x => forall_congr' fun _ => ?_
  exact hstep _ x

/-- Node 1 fetches the block that takes peer 0 out of the chain, and applies it. -/
def lonelyVote : List (Turn × Event) :=
  [(allOnline, .message (messageOf 0 (.status ONLINE 2))),
    (allOnline, .syncAnswer [Blockchain.repeatedBlock]), (allOnline, .continueSync),
    (allOnline, .resumeAdd 0), (allOnline, .resumeAdd 0), (allOnline, .resumeAdd 0)]

/-- Node 1 after some of these turns. -/
def lonelyNode (k : Nat) : Node :=
  (start (Blockchain.sampleStart 1)).run Blockchain.repeatedCrypto (lonelyVote.take k)

def lonelyTask : AddTask :=
  { obj := 0, pos := 2, stored := Blockchain.repeatedBlock, fromSync := true }

/-- **Nobody else to vote for**: of the two voters the block removes one, and the
other one is the node itself.  The block is in the store and its commands are
applied, but `add` does not return. -/
theorem vote_for_nobody :
    ¬ ∀ k x, lonelyVote[k]? = some x → GoesOn Blockchain.repeatedCrypto (lonelyNode k) x := by
  intro hclaim
  have hfifth : lonelyVote[5]? = some (allOnline, .resumeAdd 0) := rfl
  have hrun : (lonelyNode 5).halted = false := by decide +kernel
  have htask : (lonelyNode 5).adds[0]? = some lonelyTask := by decide +kernel
  have hpending : (lonelyNode 5).pending lonelyTask = none := by decide +kernel
  have hgoes := hclaim 5 (allOnline, .resumeAdd 0) hfifth 0 lonelyTask rfl hrun htask
  have hlength := congrArg List.length (hgoes.returns hpending)
  exact absurd hlength (by decide +kernel)

end Node

end Divachain
