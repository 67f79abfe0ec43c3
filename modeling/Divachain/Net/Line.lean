/-
  Divachain.Net.Line — the transactions a node still has to bring into a block.

  They stand in one line: the transaction in flight first, then the stack.
  Taking the next one from the stack and putting it back leave the line alone;
  `stack` adds to its end; a commit takes off its head.  `Booked` is what every
  turn but a commit does to the line and to what has been made of its head,
  and each function of the node gets the lemma that says so.
-/
import Divachain.Net.Moves

namespace Divachain

open DataKit

def TransactionStruct.record (t : TransactionStruct) : RecordStack :=
  { ident := t.ident, commands := t.commands }

/-- The message carries the transaction for this height. -/
def MessageData.carries (height : Nat) (t : TransactionStruct) : MessageData → Bool
  | .addTx h tx => decide (h = height) && decide (tx = t)
  | .proposeBlock b => decide (b.height = height) && decide (t ∈ b.tx)
  | _ => false

namespace Node

/-! ## §1. The line. -/

/-- The transaction in flight and the stack, in the order they were stacked. -/
def line (n : Node) : List RecordStack :=
  (n.ownTx.map fun own => own.tx.record).toList ++ n.stackTransaction

/-- The node has sent this transaction for this height. -/
def Sent (n : Node) (height : Nat) (t : TransactionStruct) : Prop :=
  ∃ m ∈ n.posted ++ n.sent, m.data.carries height t = true

instance (n : Node) (height : Nat) (t : TransactionStruct) : Decidable (n.Sent height t) :=
  inferInstanceAs (Decidable (∃ m ∈ n.posted ++ n.sent, m.data.carries height t = true))

variable (crypto : Crypto)

/-- It is the transaction of the head of the line, signed for the next height. -/
def Next (n : Node) (t : TransactionStruct) : Prop :=
  ∃ r rest, n.line = r :: rest ∧ t = n.signTx crypto r

/-- The transaction in flight is one the node has signed for the next height. -/
def Signed (n : Node) (own : RecordTx) : Prop :=
  own.height = n.chain.height + 1 ∧ own.tx = n.signTx crypto own.tx.record

/-- **What a turn without a commit does to the line**, and to what is made of
its head. -/
structure Booked (n m : Node) : Prop where
  publicKey : m.chain.publicKey = n.chain.publicKey
  height : m.chain.height = n.chain.height
  line : ∃ rs, m.accepted = n.accepted ++ rs ∧ m.line = n.line ++ rs
  ownTx : ∀ own, m.ownTx = some own → n.ownTx = some own ∨ Signed crypto m own
  posted : ∀ msg ∈ m.posted, ∀ height t, msg.data.carries height t = true →
    msg ∈ n.posted ∨ (height = n.chain.height + 1 ∧ Next crypto m t)
  kept : ∀ msg ∈ n.posted, msg ∈ m.posted
  current : ∀ t ∈ m.current.values, t.origin = n.chain.publicKey →
    t ∈ n.current.values ∨ Next crypto m t
  arrayPoolTx : ∀ t ∈ m.arrayPoolTx, t.origin = n.chain.publicKey →
    t ∈ n.arrayPoolTx ∨ t ∈ n.current.values ∨ Next crypto m t

variable {crypto} {n : Node}

theorem signTx_congr {m : Node} (hkey : m.chain.publicKey = n.chain.publicKey)
    (hheight : m.chain.height = n.chain.height) (r : RecordStack) :
    m.signTx crypto r = n.signTx crypto r := by
  rw [signTx, signTx, hkey, hheight]

/-- The head of the line stays the head. -/
theorem Booked.next {m : Node} (h : Booked crypto n m) {t : TransactionStruct}
    (ht : Next crypto n t) : Next crypto m t := by
  obtain ⟨r, rest, hline, rfl⟩ := ht
  obtain ⟨rs, -, hlonger⟩ := h.line
  refine ⟨r, rest ++ rs, ?_, (signTx_congr h.publicKey h.height r).symm⟩
  rw [hlonger, hline, List.cons_append]

theorem Booked.signed {m : Node} (h : Booked crypto n m) {own : RecordTx}
    (hown : Signed crypto n own) : Signed crypto m own := by
  refine ⟨?_, ?_⟩
  · rw [h.height]
    exact hown.1
  · rw [signTx_congr h.publicKey h.height]
    exact hown.2

theorem Booked.refl (n : Node) : Booked crypto n n :=
  ⟨rfl, rfl, ⟨[], (List.append_nil _).symm, (List.append_nil _).symm⟩, fun _ => Or.inl,
    fun _ h _ _ _ => Or.inl h, fun _ => id, fun _ h _ => Or.inl h, fun _ h _ => Or.inl h⟩

theorem Booked.trans {m k : Node} (h : Booked crypto n m) (h' : Booked crypto m k) :
    Booked crypto n k := by
  refine ⟨h'.publicKey.trans h.publicKey, h'.height.trans h.height, ?_, ?_, ?_, ?_, ?_, ?_⟩
  · obtain ⟨rs, haccepted, hline⟩ := h.line
    obtain ⟨rs', haccepted', hline'⟩ := h'.line
    refine ⟨rs ++ rs', ?_, ?_⟩
    · rw [haccepted', haccepted, List.append_assoc]
    · rw [hline', hline, List.append_assoc]
  -- What the second stretch did not write, the first has accounted for.
  · intro own hown
    rcases h'.ownTx own hown with hold | hnew
    · rcases h.ownTx own hold with hold | hnew
      · exact Or.inl hold
      · exact Or.inr (h'.signed hnew)
    · exact Or.inr hnew
  · intro msg hmsg height t hcarries
    rcases h'.posted msg hmsg height t hcarries with hold | ⟨hheight, hnext⟩
    · rcases h.posted msg hold height t hcarries with hold | ⟨hheight, hnext⟩
      · exact Or.inl hold
      · exact Or.inr ⟨hheight, h'.next hnext⟩
    · exact Or.inr ⟨hheight.trans (by rw [h.height]), hnext⟩
  · exact fun msg hmsg => h'.kept msg (h.kept msg hmsg)
  · intro t ht hown
    have hown' : t.origin = m.chain.publicKey := hown.trans h.publicKey.symm
    rcases h'.current t ht hown' with hold | hnext
    · rcases h.current t hold hown with hold | hnext
      · exact Or.inl hold
      · exact Or.inr (h'.next hnext)
    · exact Or.inr hnext
  · intro t ht hown
    have hown' : t.origin = m.chain.publicKey := hown.trans h.publicKey.symm
    rcases h'.arrayPoolTx t ht hown' with hold | hold | hnext
    · rcases h.arrayPoolTx t hold hown with hold | hold | hnext
      · exact Or.inl hold
      · exact Or.inr (Or.inl hold)
      · exact Or.inr (Or.inr (h'.next hnext))
    · rcases h.current t hold hown with hold | hnext
      · exact Or.inr (Or.inl hold)
      · exact Or.inr (Or.inr (h'.next hnext))
    · exact Or.inr (Or.inr hnext)

/-- Only these fields matter. -/
theorem Booked.of_same {m : Node} (hkey : m.chain.publicKey = n.chain.publicKey)
    (hheight : m.chain.height = n.chain.height) (haccepted : m.accepted = n.accepted)
    (hstack : m.stackTransaction = n.stackTransaction) (hown : m.ownTx = n.ownTx)
    (hposted : m.posted = n.posted) (hcurrent : m.current = n.current)
    (hpool : m.arrayPoolTx = n.arrayPoolTx) : Booked crypto n m := by
  refine ⟨hkey, hheight, ⟨[], ?_, ?_⟩, ?_, ?_, ?_, ?_, ?_⟩
  · rw [haccepted, List.append_nil]
  · rw [Node.line, Node.line, hown, hstack, List.append_nil]
  · intro own h
    exact Or.inl (hown ▸ h)
  · intro msg h _ _ _
    exact Or.inl (hposted ▸ h)
  · intro msg h
    rw [hposted]
    exact h
  · intro t h _
    exact Or.inl (hcurrent ▸ h)
  · intro t h _
    exact Or.inl (hpool ▸ h)

/-! ## §2. What each function does to it. -/

theorem booked_calcValidator (n : Node) (turn : Turn) :
    Booked crypto n (n.calcValidator turn) := by
  unfold calcValidator
  split <;> exact .of_same rfl rfl rfl rfl rfl rfl rfl rfl

theorem booked_setupRetry (n : Node) : Booked crypto n n.setupRetry :=
  .of_same rfl rfl rfl rfl rfl rfl rfl rfl

theorem booked_rescue (n : Node) (turn : Turn) : Booked crypto n (n.rescue turn) :=
  .of_same rfl rfl rfl rfl rfl rfl rfl rfl

/-- The next statement, if the last one has ended well. -/
theorem Booked.andThen {m : Node} (h : Booked crypto n m) {f : Node → Node}
    (hf : Booked crypto m (f m)) : Booked crypto n (m.andThen f) := by
  unfold Node.andThen
  split
  · exact h
  · exact h.trans hf

/-- A message that carries no transaction. -/
theorem booked_post (n : Node) {msg : Message}
    (hmsg : ∀ height t, msg.data.carries height t = true →
      height = n.chain.height + 1 ∧ Next crypto n t) : Booked crypto n (n.post msg) := by
  refine ⟨rfl, rfl, ⟨[], (List.append_nil _).symm, (List.append_nil _).symm⟩, fun _ => Or.inl, ?_,
    fun _ => List.mem_append_left _, fun _ h _ => Or.inl h, fun _ h _ => Or.inl h⟩
  intro msg' h height t hcarries
  rcases List.mem_append.mp h with h | h
  · exact Or.inl h
  · obtain rfl := List.mem_singleton.mp h
    exact Or.inr (hmsg height t hcarries)

/-- A transaction of this peer gets into the pool only if it is the head of the
line. -/
theorem booked_processAddTx (n : Node) (origin : Text) (height : Nat) {tx : TransactionStruct}
    (htx : tx.origin = n.chain.publicKey → height = n.chain.height + 1 → Next crypto n tx) :
    Booked crypto n (n.processAddTx crypto origin height tx) := by
  unfold processAddTx
  split
  next hpool =>
    have hheight : height = n.chain.height + 1 := by
      unfold poolable at hpool
      simp only [Bool.and_eq_true, decide_eq_true_eq] at hpool
      exact hpool.1.1.2
    refine ⟨rfl, rfl, ⟨[], (List.append_nil _).symm, (List.append_nil _).symm⟩, fun _ => Or.inl,
      fun _ h _ _ _ => Or.inl h, fun _ => id, ?_, ?_⟩
    · intro t ht hown
      rcases OrdMap.mem_values_set ht with rfl | ht
      · exact Or.inr (htx hown hheight)
      · exact Or.inl ht
    -- The pool is rebuilt from `current`, so its members come from there.
    · intro t ht hown
      have hmem : t ∈ (n.current.set origin tx).values := (sortPool_perm _).mem_iff.mp ht
      rcases OrdMap.mem_values_set hmem with rfl | hmem
      · exact Or.inr (Or.inr (htx hown hheight))
      · exact Or.inr (Or.inl hmem)
  next => exact .refl n

theorem booked_submit (n : Node) (turn : Turn) {height : Nat} {tx : TransactionStruct}
    (hheight : height = n.chain.height + 1) (htx : Next crypto n tx) :
    Booked crypto n (n.submit crypto turn height tx) := by
  unfold submit
  split
  · exact (booked_processAddTx n _ height fun _ _ => htx).trans (booked_setupRetry _)
  · refine (booked_post n ?_).andThen (booked_setupRetry _)
    intro h t hcarries
    simp only [Consensus.message, MessageData.carries, Bool.and_eq_true, decide_eq_true_eq]
      at hcarries
    obtain ⟨rfl, rfl⟩ := hcarries
    exact ⟨hheight, htx⟩

/-- Taking the next transaction from the stack. -/
theorem booked_doAddTx (n : Node) (turn : Turn) : Booked crypto n (n.doAddTx crypto turn) := by
  unfold doAddTx
  split
  next r rest hown hstack =>
    -- The head of the stack becomes the own transaction: the line is the same list.
    set own : RecordTx := { height := n.chain.height + 1, tx := n.signTx crypto r }
    set taken : Node := { n with stackTransaction := rest, ownTx := some own }
    have hline : taken.line = n.line := by
      rw [line, line, hown, hstack]
      rfl
    have htaken : Booked crypto n taken := by
      refine ⟨rfl, rfl, ⟨[], (List.append_nil _).symm, ?_⟩, ?_, fun _ h _ _ _ => Or.inl h,
        fun _ => id, fun _ h _ => Or.inl h, fun _ h _ => Or.inl h⟩
      · rw [hline, List.append_nil]
      · intro own' hown'
        obtain rfl := Option.some.inj hown'
        exact Or.inr ⟨rfl, rfl⟩
    have hvalidator : Booked crypto taken (taken.calcValidator turn) :=
      booked_calcValidator taken turn
    have hnext : Next crypto (taken.calcValidator turn) own.tx :=
      hvalidator.next ⟨r, rest, rfl, rfl⟩
    refine (htaken.trans hvalidator).andThen (booked_submit _ turn ?_ hnext)
    rw [hvalidator.height]
  next => exact .refl n

theorem booked_stack (n : Node) (turn : Turn) (commands : List Command) (ident : Text) :
    Booked crypto n (n.stack crypto turn commands ident) := by
  unfold stack
  dsimp only
  split
  · refine Booked.trans ?_ (booked_doAddTx _ turn)
    refine ⟨rfl, rfl, ⟨[_], rfl, ?_⟩, fun _ => Or.inl, fun _ h _ _ _ => Or.inl h, fun _ => id,
      fun _ h _ => Or.inl h, fun _ h _ => Or.inl h⟩
    show _ ++ (n.stackTransaction ++ [_]) = _ ++ n.stackTransaction ++ [_]
    rw [List.append_assoc]
  · exact .refl n

theorem booked_proposeModifyStake (n : Node) (turn : Turn) (publicKey ident : Text) (stake : Int) :
    Booked crypto n (n.proposeModifyStake crypto turn publicKey ident stake) := by
  unfold proposeModifyStake
  dsimp only
  have hqueue : ∀ (credit : Int) (c : Command),
      Booked crypto n (n.queueProposal publicKey credit c) :=
    fun _ _ => .of_same rfl rfl rfl rfl rfl rfl rfl rfl
  split
  · split
    · split
      · exact ((hqueue _ _).trans (booked_stack _ turn _ [])).andThen
          (.of_same rfl rfl rfl rfl rfl rfl rfl rfl)
      · exact hqueue _ _
    · exact .refl n
  · exact .refl n

/-- Without a block `clear` puts the transaction in flight back to the front. -/
theorem booked_clear (n : Node) : Booked crypto n (n.clear none) := by
  have hline : (n.clear none).line = n.line := by
    unfold clear Node.line
    cases n.ownTx <;> rfl
  refine ⟨rfl, rfl, ⟨[], (List.append_nil _).symm, ?_⟩, fun _ h => (nomatch h),
    fun _ h _ _ _ => Or.inl h, fun _ => id, fun _ h => (nomatch h), fun _ h => (nomatch h)⟩
  rw [hline, List.append_nil]

/-! ## §3. While a transaction is in flight, nothing is taken from the stack. -/

theorem doAddTx_of_ownTx {n : Node} {own : RecordTx} (h : n.ownTx = some own) (turn : Turn) :
    n.doAddTx crypto turn = n := by
  unfold doAddTx
  rw [h]

/-- The transaction in flight and what has been posted. -/
def outgoing (n : Node) : Option RecordTx × List Message := (n.ownTx, n.posted)

theorem outgoing_andThen {n : Node} {f : Node → Node}
    (h : ∀ m, (f m).outgoing = m.outgoing) : (n.andThen f).outgoing = n.outgoing := by
  unfold andThen
  split
  · rfl
  · exact h n

theorem outgoing_proposeModifyStake {n : Node} {own : RecordTx} (h : n.ownTx = some own)
    (turn : Turn) (publicKey ident : Text) (stake : Int) :
    (n.proposeModifyStake crypto turn publicKey ident stake).outgoing = n.outgoing := by
  -- With an own transaction under way, stacking posts nothing.
  have hstack : ∀ (m : Node) (commands : List Command), m.ownTx = some own →
      (m.stackTx crypto turn commands []).outgoing = m.outgoing := by
    intro m commands hm
    unfold stackTx stack
    dsimp only
    split
    · rw [doAddTx_of_ownTx]
      · rfl
      · exact hm
    · rfl
  unfold proposeModifyStake
  dsimp only
  split
  · split
    · split
      · rw [outgoing_andThen (f := clearProposals) fun _ => rfl]
        exact hstack _ _ h
      · rfl
    · rfl
  · rfl

end Node

end Divachain
