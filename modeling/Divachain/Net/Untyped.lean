/-
  Divachain.Net.Untyped — the checks on a block that nobody has checked before.

  The blocks of the sync loop come from `JSON.parse` and go through no schema.
  `add` and `validateBlock` read what they need of them, and some of it throws:
  a member of null, an iteration over what is not iterable, the text of an
  object without one.  Each check has three results here: true, false, and
  `none` where it throws.

  A transaction is the exception: the schema is the first thing `validateTx`
  asks for.  The signature check takes any two values; on two strings it is that
  of the library, and `verifyOther` is what it says of others.

  Main results:
    * `accepts_ne_none_iff` — when the guard of `add` does not throw;
    * `accepts_eq_true_iff` — what it lets through;
    * `accepts_toJson` — on a block of the right shape it is the one that knows
      the shape.
-/
import Divachain.Lib.Dynamic
import Divachain.Lib.Scan
import Divachain.Chain.Blockchain
import Divachain.Net.Wire

namespace Divachain

open DataKit

namespace Untyped

/-! ## §1. The checks. -/

section

variable (crypto : Crypto) (verifyOther : Option Json → Option Json → Text → Bool)

/-- `Util.verifySignature`, for whatever stands in the place of key and signature. -/
def verifySignature (publicKey sig : Option Json) (data : Text) : Bool :=
  match publicKey, sig with
  | some (.str publicKey), some (.str sig) => crypto.verifySignature publicKey sig data
  | publicKey, sig => verifyOther publicKey sig data

/-- The schema and the rest of `validateTx`. -/
def validateTx (l : Ledger) (height : Nat) (tx : Json) : Bool :=
  match TransactionStruct.ofJson tx with
  | some tx => Divachain.validateTx crypto l height tx
  | none => false

def originOf (j : Json) : Option Json := j.member WireField.origin.name

/-- One round of either loop in `validateBlock`: no null, an origin that has not
been there, and the check.  What fails the check is logged by its member `shown`. -/
def round (check : Json → Bool) (shown : Text) (aOrigin : List (Option Json)) : Json → Option Bool
  | .null => none
  | j =>
      if aOrigin.any (Json.sameValue (originOf j)) then some false
      else if check j then some true
      else if Json.Printable (j.member shown) then some false
      else none

def pushOrigin (aOrigin : List (Option Json)) (j : Json) : List (Option Json) :=
  aOrigin ++ [originOf j]

/-- The transaction loop of `validateBlock`. -/
def validateTxs (l : Ledger) (height : Nat) (tx : List Json) : Option Bool :=
  scan pushOrigin (round (validateTx crypto l height) TxField.ident.name) [] tx

def validateVote (hash : Text) (vote : Json) : Bool :=
  verifySignature crypto verifyOther (originOf vote) (vote.member WireField.sig.name) hash

/-- The vote loop of `validateBlock`. -/
def validateVotes (hash : Text) (votes : List Json) : Option Bool :=
  scan pushOrigin (round (validateVote crypto verifyOther hash) WireField.origin.name) [] votes

/-- The origins that can be the key of a peer. -/
def votersOf (votes : List Json) : List Text :=
  votes.filterMap fun vote => (originOf vote).bind Json.text

/-- The vote validation of `validateBlock`.  A text can be iterated, but it has
no `map`. -/
def validateQuorum (l : Ledger) (hash : Text) (votes : Option Json) : Option Bool := do
  let vs ← votes.bind Json.elements
  if ← validateVotes crypto verifyOther hash vs then
    match votes with
    | some (.arr _) => return l.hasQuorumWeighted (votersOf vs)
    | _ => none
  else return false

/-- `[version, previousHash, JSON.stringify(tx), height].join()`; `none` where it
throws. -/
def hashedText (j tx : Json) (previousHash : Text) (height : Nat) : Option Text :=
  (Json.joinedText (j.member WireField.version.name)).map fun version =>
    version ++ ',' :: (previousHash ++ ',' :: (tx.stringify ++ ',' :: natText height))

/-- The value is this text. -/
def isText (v : Option Json) (t : Text) : Bool := Json.sameValue v (some (.str t))

/-- A value of which a member can be read. -/
def present : Option Json → Option Json
  | none | some .null => none
  | some j => some j

/-- `validateBlock` of a block at this height after this hash. -/
def validateBlock (l : Ledger) (height : Nat) (previousHash : Text) (j : Json) : Option Bool := do
  let tx ← present (j.member WireField.tx.name)
  if tx.hasLength then
    let hash := crypto.hash (← hashedText j tx previousHash height)
    if isText (j.member WireField.hash.name) hash then
      if ← validateTxs crypto l height (← tx.elements) then
        validateQuorum crypto verifyOther l hash (j.member WireField.votes.name)
      else return false
    else return false
  else return false

/-- The block is for the next height and follows the latest block. -/
def isNext (c : Blockchain) (j : Json) : Bool :=
  Json.sameValue (j.member WireField.height.name) (some (.int (c.height + 1)))
    && Json.sameValue (j.member WireField.previousHash.name)
      (c.latestBlock.map fun b => .str b.hash)

/-- The hash the next block has to follow. -/
def latestHash (c : Blockchain) : Text := (c.latestBlock.map BlockStruct.hash).getD []

/-- The guard of `add`. -/
def accepts (c : Blockchain) : Json → Option Bool
  | .null => none
  | j =>
      if isNext c j then
        validateBlock crypto verifyOther c.toLedger (c.height + 1) (latestHash c) j
      else some false

end

/-! ## §2. When the checks throw. -/

section

variable {crypto : Crypto} {verifyOther : Option Json → Option Json → Text → Bool}
variable {check : Json → Bool} {shown : Text} {l : Ledger} {c : Blockchain}

/-- The element passes after these. -/
structure Fresh (check : Json → Bool) (aOrigin : List (Option Json)) (j : Json) : Prop where
  notNull : j ≠ .null
  new : aOrigin.any (Json.sameValue (originOf j)) = false
  checked : check j = true

theorem round_eq_true_iff {aOrigin : List (Option Json)} {j : Json} :
    round check shown aOrigin j = some true ↔ Fresh check aOrigin j := by
  constructor
  · intro h
    unfold round at h
    split at h
    · exact nomatch h
    next hnull =>
      split at h
      · exact nomatch h
      next hnew =>
        split at h
        next hchecked => exact ⟨hnull, Bool.eq_false_iff.mpr hnew, hchecked⟩
        next =>
          split at h
          · exact nomatch h
          · exact nomatch h
  · intro h
    unfold round
    split
    · exact absurd rfl h.notNull
    · rw [h.new, h.checked]
      rfl

/-- What is turned away is not null, and its member can be logged. -/
structure Turned (check : Json → Bool) (shown : Text) (aOrigin : List (Option Json)) (j : Json) :
    Prop where
  notNull : j ≠ .null
  logged : aOrigin.any (Json.sameValue (originOf j)) = false → check j = false →
    Json.Printable (j.member shown)

theorem round_ne_none_iff {aOrigin : List (Option Json)} {j : Json} :
    round check shown aOrigin j ≠ none ↔ Turned check shown aOrigin j := by
  unfold round
  split
  next => exact iff_of_false (fun h => h rfl) fun h => h.notNull rfl
  next hnull =>
    by_cases hnew : aOrigin.any (Json.sameValue (originOf j)) = true
    · rw [if_pos hnew]
      refine iff_of_true (fun h => nomatch h) ⟨hnull, fun h => ?_⟩
      exact absurd (hnew.symm.trans h) (by decide)
    by_cases hcheck : check j = true
    · rw [if_neg hnew, if_pos hcheck]
      refine iff_of_true (fun h => nomatch h) ⟨hnull, fun _ h => ?_⟩
      exact absurd (hcheck.symm.trans h) (by decide)
    rw [if_neg hnew, if_neg hcheck]
    by_cases hprint : Json.Printable (j.member shown)
    · rw [if_pos hprint]
      exact iff_of_true (fun h => nomatch h) ⟨hnull, fun _ _ => hprint⟩
    · rw [if_neg hprint]
      refine iff_of_false (fun h => h rfl) fun h => hprint ?_
      exact h.logged (Bool.eq_false_iff.mpr hnew) (Bool.eq_false_iff.mpr hcheck)

theorem foldl_pushOrigin : ∀ (aOrigin : List (Option Json)) (js : List Json),
    js.foldl pushOrigin aOrigin = aOrigin ++ js.map originOf
  | aOrigin, [] => (List.append_nil aOrigin).symm
  | aOrigin, j :: js => by
      rw [List.foldl_cons, foldl_pushOrigin, pushOrigin, List.append_assoc]
      rfl

/-- Each element passes after the ones before it. -/
def Sound (check : Json → Bool) (js : List Json) : Prop :=
  ∀ before j after, js = before ++ j :: after → Fresh check (before.map originOf) j

/-- **The first element that does not pass** can be turned away. -/
def Readable (check : Json → Bool) (shown : Text) (js : List Json) : Prop :=
  ∀ before j after, js = before ++ j :: after → Sound check before →
    Turned check shown (before.map originOf) j

theorem passes_iff_sound {js : List Json} :
    Passes pushOrigin (round check shown) [] js ↔ Sound check js := by
  unfold Passes Sound
  refine forall_congr' fun before => forall_congr' fun j => forall_congr' fun after =>
    forall_congr' fun _ => ?_
  rw [round_eq_true_iff, foldl_pushOrigin, List.nil_append]

theorem unthrown_iff_readable {js : List Json} :
    Unthrown pushOrigin (round check shown) [] js ↔ Readable check shown js := by
  unfold Unthrown Readable
  refine forall_congr' fun before => forall_congr' fun j => forall_congr' fun after =>
    forall_congr' fun _ => ?_
  rw [passes_iff_sound]
  refine forall_congr' fun _ => ?_
  rw [round_ne_none_iff, foldl_pushOrigin, List.nil_append]

theorem validateTxs_eq_true_iff {height : Nat} {tx : List Json} :
    validateTxs crypto l height tx = some true ↔ Sound (validateTx crypto l height) tx :=
  scan_eq_true_iff.trans passes_iff_sound

theorem validateTxs_ne_none_iff {height : Nat} {tx : List Json} :
    validateTxs crypto l height tx ≠ none
      ↔ Readable (validateTx crypto l height) TxField.ident.name tx :=
  scan_ne_none_iff.trans unthrown_iff_readable

theorem validateVotes_eq_true_iff {hash : Text} {votes : List Json} :
    validateVotes crypto verifyOther hash votes = some true
      ↔ Sound (validateVote crypto verifyOther hash) votes :=
  scan_eq_true_iff.trans passes_iff_sound

theorem validateVotes_ne_none_iff {hash : Text} {votes : List Json} :
    validateVotes crypto verifyOther hash votes ≠ none
      ↔ Readable (validateVote crypto verifyOther hash) WireField.origin.name votes :=
  scan_ne_none_iff.trans unthrown_iff_readable

/-- The votes can be looked at, one after the other, and if all of them pass they
are an array. -/
structure VotesReadable (crypto : Crypto) (verifyOther : Option Json → Option Json → Text → Bool)
    (hash : Text) (votes : Option Json) (vs : List Json) : Prop where
  elements : votes.bind Json.elements = some vs
  readable : Readable (validateVote crypto verifyOther hash) WireField.origin.name vs
  array : Sound (validateVote crypto verifyOther hash) vs → ∃ vs, votes = some (.arr vs)

/-- The votes are an array in which each passes, and they reach the quorum. -/
structure VotesPass (crypto : Crypto) (verifyOther : Option Json → Option Json → Text → Bool)
    (l : Ledger) (hash : Text) (votes : Option Json) (vs : List Json) : Prop where
  array : votes = some (.arr vs)
  sound : Sound (validateVote crypto verifyOther hash) vs
  quorum : l.hasQuorumWeighted (votersOf vs) = true

theorem validateQuorum_ne_none_iff {hash : Text} {votes : Option Json} :
    validateQuorum crypto verifyOther l hash votes ≠ none
      ↔ ∃ vs, VotesReadable crypto verifyOther hash votes vs := by
  unfold validateQuorum
  cases helements : votes.bind Json.elements with
  | none =>
    refine iff_of_false (fun h => h rfl) ?_
    rintro ⟨vs, h⟩
    exact nomatch helements.symm.trans h.elements
  | some vs =>
    have hloop : validateVotes crypto verifyOther hash vs ≠ none ↔ _ := validateVotes_ne_none_iff
    have hpass : validateVotes crypto verifyOther hash vs = some true ↔ _ :=
      validateVotes_eq_true_iff
    have hunique : (∃ vs', VotesReadable crypto verifyOther hash votes vs')
        ↔ VotesReadable crypto verifyOther hash votes vs := by
      constructor
      · rintro ⟨vs', h⟩
        obtain rfl := Option.some.inj (helements.symm.trans h.elements)
        exact h
      · exact fun h => ⟨vs, h⟩
    rw [hunique]
    show (validateVotes crypto verifyOther hash vs).bind _ ≠ none ↔ _
    cases hvotes : validateVotes crypto verifyOther hash vs with
    | none => exact iff_of_false (fun h => h rfl) fun h => hloop.mpr h.readable hvotes
    | some b =>
      have hreadable := hloop.mp (by rw [hvotes]; exact fun h => nomatch h)
      cases b with
      | false =>
        refine iff_of_true (fun h => nomatch h) ⟨helements, hreadable, fun h => ?_⟩
        exact nomatch hvotes.symm.trans (hpass.mpr h)
      | true =>
        have hsound := hpass.mp hvotes
        rw [Option.bind_some, if_pos rfl]
        -- `votes.map`, which a text does not have
        split
        next ws => exact iff_of_true (fun h => nomatch h) ⟨helements, hreadable, fun _ => ⟨ws, rfl⟩⟩
        next hother =>
          refine iff_of_false (fun h => h rfl) fun h => ?_
          obtain ⟨ws, hws⟩ := h.array hsound
          exact hother ws hws

theorem validateQuorum_eq_true_iff {hash : Text} {votes : Option Json} :
    validateQuorum crypto verifyOther l hash votes = some true
      ↔ ∃ vs, VotesPass crypto verifyOther l hash votes vs := by
  unfold validateQuorum
  constructor
  · intro h
    obtain ⟨vs, helements, h⟩ := Option.bind_eq_some_iff.mp h
    obtain ⟨b, hvotes, h⟩ := Option.bind_eq_some_iff.mp h
    split at h
    next hb =>
      rw [hb] at hvotes
      have hsound := validateVotes_eq_true_iff.mp hvotes
      cases votes with
      | none => exact nomatch helements
      | some votes =>
        cases votes with
        | arr ws =>
          obtain rfl : ws = vs := Option.some.inj helements
          exact ⟨ws, rfl, hsound, Option.some.inj h⟩
        | _ => exact nomatch h
    next => exact nomatch Option.some.inj h
  · rintro ⟨vs, rfl, hsound, hquorum⟩
    show (validateVotes crypto verifyOther hash vs).bind _ = _
    rw [validateVotes_eq_true_iff.mpr hsound, Option.bind_some, if_pos rfl]
    exact congrArg some hquorum

/-- **A block that can be read to its end**, or up to where it is turned away. -/
structure BlockReadable (crypto : Crypto) (verifyOther : Option Json → Option Json → Text → Bool)
    (l : Ledger) (height : Nat) (previousHash : Text) (j tx : Json) : Prop where
  tx_eq : present (j.member WireField.tx.name) = some tx
  rest : tx.hasLength = true → ∃ text, hashedText j tx previousHash height = some text
    ∧ (isText (j.member WireField.hash.name) (crypto.hash text) = true →
      ∃ txs, tx.elements = some txs
        ∧ Readable (validateTx crypto l height) TxField.ident.name txs
        ∧ (Sound (validateTx crypto l height) txs →
          ∃ vs, VotesReadable crypto verifyOther (crypto.hash text)
            (j.member WireField.votes.name) vs))

/-- **A block that passes**, with what has been read of it. -/
structure BlockPasses (crypto : Crypto) (verifyOther : Option Json → Option Json → Text → Bool)
    (l : Ledger) (height : Nat) (previousHash : Text) (j tx : Json) (text : Text)
    (txs vs : List Json) : Prop where
  tx_eq : present (j.member WireField.tx.name) = some tx
  hasLength : tx.hasLength = true
  hashed : hashedText j tx previousHash height = some text
  hash : isText (j.member WireField.hash.name) (crypto.hash text) = true
  elements : tx.elements = some txs
  sound : Sound (validateTx crypto l height) txs
  votes : VotesPass crypto verifyOther l (crypto.hash text) (j.member WireField.votes.name) vs

/-- The two loops of `validateBlock`: the votes are looked at if all transactions pass. -/
theorem loops_ne_none_iff {height : Nat} {hash : Text} {txs : List Json} {votes : Option Json} :
    ((validateTxs crypto l height txs).bind fun passed =>
        if passed then validateQuorum crypto verifyOther l hash votes else some false) ≠ none
      ↔ Readable (validateTx crypto l height) TxField.ident.name txs
        ∧ (Sound (validateTx crypto l height) txs →
          ∃ vs, VotesReadable crypto verifyOther hash votes vs) := by
  have hloop : validateTxs crypto l height txs ≠ none ↔ _ := validateTxs_ne_none_iff
  have hpass : validateTxs crypto l height txs = some true ↔ _ := validateTxs_eq_true_iff
  rw [← hloop, ← hpass]
  cases validateTxs crypto l height txs with
  | none => exact iff_of_false (fun h => h rfl) fun h => h.1 rfl
  | some passed =>
    cases passed with
    | false =>
      refine iff_of_true (fun h => nomatch h) ⟨?_, ?_⟩
      · exact fun h => nomatch h
      · exact fun h => nomatch Option.some.inj h
    | true =>
      rw [Option.bind_some, if_pos rfl, validateQuorum_ne_none_iff]
      refine ⟨fun h => ⟨?_, fun _ => h⟩, fun h => h.2 rfl⟩
      exact fun h => nomatch h

theorem validateBlock_ne_none_iff {height : Nat} {previousHash : Text} {j : Json} :
    validateBlock crypto verifyOther l height previousHash j ≠ none
      ↔ ∃ tx, BlockReadable crypto verifyOther l height previousHash j tx := by
  unfold validateBlock
  cases htx : present (j.member WireField.tx.name) with
  | none =>
    refine iff_of_false (fun h => h rfl) ?_
    rintro ⟨tx, h⟩
    exact nomatch htx.symm.trans h.tx_eq
  | some tx =>
    have hunique : (∃ tx', BlockReadable crypto verifyOther l height previousHash j tx')
        ↔ BlockReadable crypto verifyOther l height previousHash j tx := by
      constructor
      · rintro ⟨tx', h⟩
        obtain rfl := Option.some.inj (htx.symm.trans h.tx_eq)
        exact h
      · exact fun h => ⟨tx, h⟩
    rw [hunique]
    show (if tx.hasLength = true then _ else _) ≠ none ↔ _
    by_cases hlength : tx.hasLength = true
    · rw [if_pos hlength]
      cases htext : hashedText j tx previousHash height with
      | none =>
        refine iff_of_false (fun h => h rfl) fun h => ?_
        obtain ⟨text, htext', -⟩ := h.rest hlength
        exact nomatch htext.symm.trans htext'
      | some text =>
        show (if isText (j.member WireField.hash.name) (crypto.hash text) = true then _ else _)
          ≠ none ↔ _
        by_cases hhash : isText (j.member WireField.hash.name) (crypto.hash text) = true
        · rw [if_pos hhash]
          cases helements : tx.elements with
          | none =>
            refine iff_of_false (fun h => h rfl) fun h => ?_
            obtain ⟨text', htext', hrest⟩ := h.rest hlength
            obtain rfl := Option.some.inj (htext.symm.trans htext')
            obtain ⟨txs, helements', -⟩ := hrest hhash
            exact nomatch helements.symm.trans helements'
          | some txs =>
            refine loops_ne_none_iff.trans ?_
            -- what the condition comes to once all this has been read
            constructor
            · intro h
              exact ⟨htx, fun _ => ⟨text, htext, fun _ => ⟨txs, helements, h⟩⟩⟩
            · intro h
              obtain ⟨text', htext', hrest⟩ := h.rest hlength
              obtain rfl := Option.some.inj (htext.symm.trans htext')
              obtain ⟨txs', helements', hreadable⟩ := hrest hhash
              obtain rfl := Option.some.inj (helements.symm.trans helements')
              exact hreadable
        · rw [if_neg hhash]
          refine iff_of_true (fun h => nomatch h) ⟨htx, fun _ => ⟨text, htext, fun h => ?_⟩⟩
          exact absurd h hhash
    · rw [if_neg hlength]
      exact iff_of_true (fun h => nomatch h) ⟨htx, fun h => absurd h hlength⟩

theorem validateBlock_eq_true_iff {height : Nat} {previousHash : Text} {j : Json} :
    validateBlock crypto verifyOther l height previousHash j = some true
      ↔ ∃ tx text txs vs,
        BlockPasses crypto verifyOther l height previousHash j tx text txs vs := by
  unfold validateBlock
  constructor
  · intro h
    obtain ⟨tx, htx, h⟩ := Option.bind_eq_some_iff.mp h
    split at h
    next hlength =>
      obtain ⟨text, htext, h⟩ := Option.bind_eq_some_iff.mp h
      dsimp only at h
      split at h
      next hhash =>
        obtain ⟨txs, helements, h⟩ := Option.bind_eq_some_iff.mp h
        obtain ⟨b, htxs, h⟩ := Option.bind_eq_some_iff.mp h
        split at h
        next hb =>
          rw [hb] at htxs
          obtain ⟨vs, hvotes⟩ := validateQuorum_eq_true_iff.mp h
          exact ⟨tx, text, txs, vs, htx, hlength, htext, hhash, helements,
            validateTxs_eq_true_iff.mp htxs, hvotes⟩
        next => exact nomatch Option.some.inj h
      next => exact nomatch Option.some.inj h
    next => exact nomatch Option.some.inj h
  · rintro ⟨tx, text, txs, vs, h⟩
    rw [h.tx_eq, Option.bind_eq_bind, Option.bind_some, if_pos h.hasLength, h.hashed,
      Option.bind_eq_bind, Option.bind_some]
    dsimp only
    rw [if_pos h.hash, h.elements, Option.bind_eq_bind, Option.bind_some,
      validateTxs_eq_true_iff.mpr h.sound, Option.bind_eq_bind, Option.bind_some, if_pos rfl,
      validateQuorum_eq_true_iff.mpr ⟨vs, h.votes⟩]

theorem eq_of_isText {v : Option Json} {t : Text} (h : isText v t = true) : v = some (.str t) := by
  unfold isText at h
  cases v with
  | none => exact absurd h Bool.false_ne_true
  | some j =>
    cases j with
    | str s =>
      have heq : s = t := beq_iff_eq.mp h
      rw [heq]
    | _ => exact absurd h Bool.false_ne_true

theorem eq_of_sameInt {v : Option Json} {n : Int} (h : Json.sameValue v (some (.int n)) = true) :
    v = some (.int n) := by
  cases v with
  | none => exact absurd h Bool.false_ne_true
  | some j =>
    cases j with
    | int m =>
      have heq : m = n := beq_iff_eq.mp h
      rw [heq]
    | _ => exact absurd h Bool.false_ne_true

/-- **The guard of `add` does not throw**: the value is not null, and if it is the
next block it can be read. -/
theorem accepts_ne_none_iff {j : Json} :
    accepts crypto verifyOther c j ≠ none
      ↔ j ≠ .null ∧ (isNext c j = true → ∃ tx,
        BlockReadable crypto verifyOther c.toLedger (c.height + 1) (latestHash c) j tx) := by
  unfold accepts
  split
  next => exact iff_of_false (fun h => h rfl) fun h => h.1 rfl
  next hnull =>
    rw [← validateBlock_ne_none_iff]
    by_cases hnext : isNext c j = true
    · rw [if_pos hnext]
      exact ⟨fun h => ⟨hnull, fun _ => h⟩, fun h => h.2 hnext⟩
    · rw [if_neg hnext]
      exact iff_of_true (fun h => nomatch h) ⟨hnull, fun h => absurd h hnext⟩

/-- **What the guard of `add` lets through.** -/
theorem accepts_eq_true_iff {j : Json} :
    accepts crypto verifyOther c j = some true
      ↔ isNext c j = true ∧ ∃ tx text txs vs,
        BlockPasses crypto verifyOther c.toLedger (c.height + 1) (latestHash c) j tx text txs vs := by
  unfold accepts
  split
  next =>
    refine iff_of_false (fun h => nomatch h) fun h => ?_
    obtain ⟨tx, text, txs, vs, hpasses⟩ := h.2
    exact nomatch hpasses.tx_eq
  next hnull =>
    rw [← validateBlock_eq_true_iff]
    by_cases hnext : isNext c j = true
    · rw [if_pos hnext]
      exact ⟨fun h => ⟨hnext, h⟩, fun h => h.2⟩
    · rw [if_neg hnext]
      exact iff_of_false (fun h => nomatch h) fun h => hnext h.1

end

/-! ## §3. What has been read had been written. -/

theorem map_fst_of_mapM {κ : Type} {ofName : Text → Option κ} {name : κ → Text}
    (hname : ∀ t k, ofName t = some k → name k = t) :
    ∀ {l : List (Text × Json)} {keys : List κ}, l.mapM (fun e => ofName e.1) = some keys →
      l.map Prod.fst = keys.map name
  | [], keys, h => by
      obtain rfl := Option.some.inj h
      rfl
  | e :: l, keys, h => by
      rw [List.mapM_cons] at h
      obtain ⟨k, hk, h⟩ := Option.bind_eq_some_iff.mp h
      obtain ⟨rest, hrest, h⟩ := Option.bind_eq_some_iff.mp h
      obtain rfl := Option.some.inj h
      rw [List.map_cons, List.map_cons, hname e.1 k hk, map_fst_of_mapM hname hrest]

theorem name_of_ofName {t : Text} {f : Field} (h : Field.ofName t = some f) : f.name = t := by
  have hfound := List.find?_some (p := fun f : Field => decide (f.name = t)) h
  exact of_decide_eq_true hfound

theorem txName_of_ofName {t : Text} {f : TxField} (h : TxField.ofName t = some f) : f.name = t := by
  have hfound := List.find?_some (p := fun f : TxField => decide (f.name = t)) h
  exact of_decide_eq_true hfound

theorem integer_eq_some {j : Json} {n : Int} (h : j.integer = some n) : j = .int n := by
  cases j with
  | int k => exact congrArg Json.int (Option.some.inj h)
  | _ => exact nomatch h

/-- A member that has been read as a text. -/
theorem lookup_of_text {l : List (Text × Json)} {name t : Text}
    (h : Json.field l name Json.text = some t) : l.lookup name = some (.str t) := by
  obtain ⟨j, hj, ht⟩ := Json.field_eq_some h
  rw [hj, Json.text_eq_some ht]

theorem lookup_of_integer {l : List (Text × Json)} {name : Text} {n : Int}
    (h : Json.field l name Json.integer = some n) : l.lookup name = some (.int n) := by
  obtain ⟨j, hj, hn⟩ := Json.field_eq_some h
  rw [hj, integer_eq_some hn]

/-- The members of a command besides the two that each command has. -/
theorem of_own_fields {P : Field → Prop} {own : List Field} (h : ∀ f ∈ own, P f) :
    ∀ f ∈ Field.seq :: Field.command :: own, f ≠ .seq → f ≠ .command → P f := by
  intro f hf hseq hcommand
  rw [List.mem_cons, List.mem_cons] at hf
  rcases hf with hf | hf | hf
  · exact absurd hf hseq
  · exact absurd hf hcommand
  · exact h f hf

/-- The members that the body of a command has been read from. -/
theorem lookup_of_body {l : List (Text × Json)} {command : Text} {c : Command}
    (h : CommandBody.ofJson l command = some c.body) :
    c.body.name = command
      ∧ ∀ f ∈ c.body.fields, f ≠ .seq → f ≠ .command →
        l.lookup f.name = (c.value f).map leafJson := by
  obtain ⟨seq, body, keys⟩ := c
  unfold CommandBody.ofJson at h
  dsimp only at h ⊢
  split at h
  next hname =>
    obtain ⟨http, hhttp, h⟩ := Option.bind_eq_some_iff.mp h
    obtain ⟨udp, hudp, h⟩ := Option.bind_eq_some_iff.mp h
    obtain ⟨publicKey, hkey, h⟩ := Option.bind_eq_some_iff.mp h
    obtain rfl := Option.some.inj h
    refine ⟨hname.symm, of_own_fields ?_⟩
    rw [List.forall_mem_cons, List.forall_mem_cons, List.forall_mem_singleton]
    exact ⟨lookup_of_text hhttp, lookup_of_text hudp, lookup_of_text hkey⟩
  split at h
  next hname =>
    obtain ⟨publicKey, hkey, h⟩ := Option.bind_eq_some_iff.mp h
    obtain rfl := Option.some.inj h
    refine ⟨hname.symm, of_own_fields ?_⟩
    rw [List.forall_mem_singleton]
    exact lookup_of_text hkey
  split at h
  next hname =>
    obtain ⟨publicKey, hkey, h⟩ := Option.bind_eq_some_iff.mp h
    obtain ⟨ident, hident, h⟩ := Option.bind_eq_some_iff.mp h
    obtain ⟨stake, hstake, h⟩ := Option.bind_eq_some_iff.mp h
    obtain rfl := Option.some.inj h
    refine ⟨hname.symm, of_own_fields ?_⟩
    rw [List.forall_mem_cons, List.forall_mem_cons, List.forall_mem_singleton]
    exact ⟨lookup_of_text hkey, lookup_of_text hident, lookup_of_integer hstake⟩
  split at h
  next hname =>
    obtain ⟨ns, hns, h⟩ := Option.bind_eq_some_iff.mp h
    obtain ⟨d, hd, h⟩ := Option.bind_eq_some_iff.mp h
    obtain rfl := Option.some.inj h
    refine ⟨hname.symm, of_own_fields ?_⟩
    rw [List.forall_mem_cons, List.forall_mem_singleton]
    exact ⟨lookup_of_text hns, lookup_of_text hd⟩
  split at h
  next hname =>
    obtain ⟨ns, hns, h⟩ := Option.bind_eq_some_iff.mp h
    obtain ⟨height, hheight, h⟩ := Option.bind_eq_some_iff.mp h
    obtain ⟨d, hd, h⟩ := Option.bind_eq_some_iff.mp h
    obtain rfl := Option.some.inj h
    refine ⟨hname.symm, of_own_fields ?_⟩
    rw [List.forall_mem_cons, List.forall_mem_cons, List.forall_mem_singleton]
    exact ⟨lookup_of_text hns, lookup_of_integer hheight, lookup_of_text hd⟩
  next => exact nomatch h

/-- Members written key by key, none of them left out. -/
theorem map_filterMap_name {κ α : Type} {name : κ → Text} {value : κ → Option α} (g : α → Json) :
    ∀ {keys : List κ}, (∀ k ∈ keys, (value k).isSome = true) →
      (keys.filterMap fun k => (value k).map fun v => (name k, v)).map (fun e => (e.1, g e.2))
        = keys.map fun k => (name k, ((value k).map g).getD .null)
  | [], _ => rfl
  | k :: keys, h => by
      obtain ⟨v, hv⟩ := Option.isSome_iff_exists.mp (h k List.mem_cons_self)
      rw [List.filterMap_cons_some (b := (name k, v)) (by rw [hv]; rfl), List.map_cons,
        List.map_cons, map_filterMap_name g fun k' hk' => h k' (List.mem_cons_of_mem _ hk'), hv]
      rfl

theorem fields_nodup (body : CommandBody) : body.fields.Nodup := by
  cases body <;> simp [CommandBody.fields]

/-- **A value read as a command** is the one the command writes. -/
theorem command_toJson {j : Json} {c : Command} (h : Command.ofJson j = some c)
    (hk : c.WellKeyed) : j = c.toJson := by
  cases j with
  | obj l =>
    obtain ⟨keys, hkeys, h⟩ := Option.bind_eq_some_iff.mp h
    obtain ⟨seq, hseq, h⟩ := Option.bind_eq_some_iff.mp h
    obtain ⟨command, hcommand, h⟩ := Option.bind_eq_some_iff.mp h
    obtain ⟨body, hbody, h⟩ := Option.bind_eq_some_iff.mp h
    obtain rfl := Option.some.inj h
    set c : Command := { seq := seq, body := body, keys := keys } with hc
    -- each of its members is the value the command has under that name
    obtain ⟨hname, hfields⟩ := lookup_of_body (c := c) hbody
    have hvalue : ∀ f ∈ c.keys, l.lookup f.name = some (((c.value f).map leafJson).getD .null) := by
      intro f hf
      have hsome := c.value_isSome f (hk.mem_iff.mp hf)
      obtain ⟨v, hv⟩ := Option.isSome_iff_exists.mp hsome
      have hlookup : l.lookup f.name = (c.value f).map leafJson := by
        by_cases hfseq : f = .seq
        · subst hfseq
          exact lookup_of_integer hseq
        by_cases hfcommand : f = .command
        · subst hfcommand
          rw [lookup_of_text hcommand, ← hname]
          rfl
        exact hfields f (hk.mem_iff.mp hf) hfseq hfcommand
      rw [hlookup, hv]
      rfl
    have hnodup : (c.keys.map Field.name).Nodup :=
      (hk.nodup_iff.mpr (fields_nodup c.body)).map Field.name_injective
    have hl := Json.eq_of_lookup (map_fst_of_mapM (fun _ _ => name_of_ofName) hkeys) hnodup hvalue
    have hmembers : c.members.map (fun e => (e.1, leafJson e.2))
        = c.keys.map fun k => (k.name, ((c.value k).map leafJson).getD .null) :=
      map_filterMap_name leafJson fun k hk' => c.value_isSome k (hk.mem_iff.mp hk')
    rw [Command.toJson, hmembers, hl]
  | _ => exact nomatch h

/-- An array that has been read item by item. -/
theorem array_toJson {α : Type} {ofJson : Json → Option α} {toJson : α → Json} :
    ∀ {js : List Json} {l : List α}, js.mapM ofJson = some l →
      (∀ j a, ofJson j = some a → a ∈ l → j = toJson a) → js = l.map toJson
  | [], l, h, _ => by
      obtain rfl := Option.some.inj h
      rfl
  | j :: js, l, h, hread => by
      rw [List.mapM_cons] at h
      obtain ⟨a, ha, h⟩ := Option.bind_eq_some_iff.mp h
      obtain ⟨rest, hrest, h⟩ := Option.bind_eq_some_iff.mp h
      obtain rfl := Option.some.inj h
      have hfirst := hread j a ha List.mem_cons_self
      have hothers := array_toJson hrest fun j' a' h' ha' => hread j' a' h' (List.mem_cons_of_mem _ ha')
      rw [List.map_cons, ← hfirst, ← hothers]

theorem lookup_of_array {α : Type} {l : List (Text × Json)} {name : Text} {item : Json → Option α}
    {as : List α} (h : Json.field l name (Json.array item) = some as) :
    ∃ js, l.lookup name = some (.arr js) ∧ js.mapM item = some as := by
  obtain ⟨j, hj, has⟩ := Json.field_eq_some h
  cases j with
  | arr js => exact ⟨js, hj, has⟩
  | _ => exact nomatch has

/-- **A value read as a transaction** is the one the transaction writes. -/
theorem tx_toJson {j : Json} {t : TransactionStruct} (h : TransactionStruct.ofJson j = some t)
    (hk : t.WellKeyed) : j = t.toJson := by
  cases j with
  | obj l =>
    obtain ⟨keys, hkeys, h⟩ := Option.bind_eq_some_iff.mp h
    obtain ⟨ident, hident, h⟩ := Option.bind_eq_some_iff.mp h
    obtain ⟨origin, horigin, h⟩ := Option.bind_eq_some_iff.mp h
    obtain ⟨commands, hcommands, h⟩ := Option.bind_eq_some_iff.mp h
    obtain ⟨sig, hsig, h⟩ := Option.bind_eq_some_iff.mp h
    obtain rfl := Option.some.inj h
    set t : TransactionStruct :=
      { ident := ident, origin := origin, commands := commands, sig := sig, keys := keys } with ht
    have hvalue : ∀ f ∈ t.keys, l.lookup f.name = some (t.json f) := by
      intro f _
      cases f with
      | ident => exact lookup_of_text hident
      | origin => exact lookup_of_text horigin
      | commands =>
        obtain ⟨js, hjs, hread⟩ := lookup_of_array hcommands
        have hwritten : js = commands.map Command.toJson :=
          array_toJson hread fun j c hc hmem => command_toJson hc (hk.2 c hmem)
        rw [hjs, hwritten]
        rfl
      | sig => exact lookup_of_text hsig
    have hnodup : (t.keys.map TxField.name).Nodup :=
      (hk.1.nodup_iff.mpr (by decide)).map TxField.name_injective
    have hl := Json.eq_of_lookup (map_fst_of_mapM (fun _ _ => txName_of_ofName) hkeys) hnodup hvalue
    rw [TransactionStruct.toJson, hl]
  | _ => exact nomatch h

/-! ## §4. Texts. -/

theorem stringify_leaf (v : Text ⊕ Int) : (leafJson v).stringify = leafText v := by
  cases v with
  | inl t => rfl
  | inr n => rfl

theorem stringify_command (c : Command) : c.toJson.stringify = objText leafText c.members := by
  rw [Command.toJson, Json.stringify_obj, List.map_map, ← Json.objText_map leafText c.members]
  refine congrArg (objText id) (List.map_congr_left fun e _ => ?_)
  show (e.1, (leafJson e.2).stringify) = (e.1, leafText e.2)
  rw [stringify_leaf]

theorem stringify_commands (l : List Command) :
    (Json.arr (l.map Command.toJson)).stringify = stringifyCommands l := by
  have hright := Json.arrText_map (objText leafText) (l.map Command.members)
  rw [Json.stringify_arr, stringifyCommands, ← hright, List.map_map, List.map_map]
  exact congrArg (arrText id) (List.map_congr_left fun c _ => stringify_command c)

theorem stringify_tx (t : TransactionStruct) : t.toJson.stringify = objText txValueText t.members := by
  have hvalue : ∀ f : TxField, (t.json f).stringify = txValueText (t.value f) := by
    intro f
    cases f with
    | commands => exact stringify_commands t.commands
    | _ => rfl
  have hright := Json.objText_map txValueText t.members
  rw [TransactionStruct.toJson, Json.stringify_obj, List.map_map, ← hright,
    TransactionStruct.members, List.map_map]
  refine congrArg (objText id) (List.map_congr_left fun f _ => ?_)
  show (f.name, (t.json f).stringify) = (f.name, txValueText (t.value f))
  rw [hvalue]

/-- **The text of transactions is that of what they write.** -/
theorem stringify_txs (tx : List TransactionStruct) :
    (Json.arr (tx.map TransactionStruct.toJson)).stringify = stringifyTx tx := by
  have hright := Json.arrText_map (objText txValueText) (tx.map TransactionStruct.members)
  rw [Json.stringify_arr, stringifyTx, ← hright, List.map_map, List.map_map]
  exact congrArg (arrText id) (List.map_congr_left fun t _ => stringify_tx t)

/-! ## §5. What passes has the right shape. -/

section

variable {crypto : Crypto} {verifyOther : Option Json → Option Json → Text → Bool}
variable {check : Json → Bool} {shown : Text} {l : Ledger} {c : Blockchain}

theorem passes_iff {aOrigin : List (Option Json)} :
    ∀ {js : List Json}, Passes pushOrigin (round check shown) aOrigin js
      ↔ (∀ j ∈ js, Fresh check aOrigin j)
        ∧ js.Pairwise fun a b => Json.sameValue (originOf b) (originOf a) = false
  | [] => iff_of_true passes_nil ⟨(fun j hj => nomatch hj), List.Pairwise.nil⟩
  | j :: js => by
      rw [passes_cons, round_eq_true_iff, passes_iff, List.pairwise_cons, List.forall_mem_cons]
      -- one origin more to be different from
      have hpush : ∀ k, Fresh check (pushOrigin aOrigin j) k
          ↔ Fresh check aOrigin k ∧ Json.sameValue (originOf k) (originOf j) = false := by
        intro k
        have hany : (pushOrigin aOrigin j).any (Json.sameValue (originOf k))
            = (aOrigin.any (Json.sameValue (originOf k))
              || Json.sameValue (originOf k) (originOf j)) := by
          rw [pushOrigin, List.any_append, List.any_cons, List.any_nil, Bool.or_false]
        constructor
        · intro h
          have hnew := h.new
          rw [hany, Bool.or_eq_false_iff] at hnew
          exact ⟨⟨h.notNull, hnew.1, h.checked⟩, hnew.2⟩
        · rintro ⟨h, hsame⟩
          refine ⟨h.notNull, ?_, h.checked⟩
          rw [hany, h.new, hsame]
          rfl
      constructor
      · rintro ⟨hfirst, hrest, hpairs⟩
        exact ⟨⟨hfirst, fun k hk => ((hpush k).mp (hrest k hk)).1⟩,
          fun k hk => ((hpush k).mp (hrest k hk)).2, hpairs⟩
      · rintro ⟨⟨hfirst, hrest⟩, hothers, hpairs⟩
        exact ⟨hfirst, fun k hk => (hpush k).mpr ⟨hrest k hk, hothers k hk⟩, hpairs⟩

/-- **All elements pass**: each passes its check, and no origin is there twice. -/
theorem sound_iff {js : List Json} :
    Sound check js ↔ (∀ j ∈ js, j ≠ .null ∧ check j = true)
      ∧ js.Pairwise fun a b => Json.sameValue (originOf b) (originOf a) = false := by
  have hpasses : Passes pushOrigin (round check []) [] js ↔ Sound check js := passes_iff_sound
  rw [← hpasses, passes_iff]
  have hfresh : ∀ j, Fresh check [] j ↔ j ≠ .null ∧ check j = true := fun j =>
    ⟨fun h => ⟨h.notNull, h.checked⟩, fun h => ⟨h.1, rfl, h.2⟩⟩
  simp only [hfresh]

/-- A member of a transaction that has all of them. -/
theorem member_tx {t : TransactionStruct} (h : t.WellKeyed) (k : TxField) :
    t.toJson.member k.name = some (t.json k) := by
  have hmem : k ∈ t.keys := h.1.mem_iff.mpr (by cases k <;> decide)
  have hall := lookup_filterMap_name TxField.name_injective (fun k => some (t.json k)) k hmem
  change (t.keys.filterMap (some ∘ fun k => (k.name, t.json k))).lookup _ = _ at hall
  rw [List.filterMap_eq_map] at hall
  exact hall

theorem originOf_tx {t : TransactionStruct} (h : t.WellKeyed) :
    originOf t.toJson = some (.str t.origin) := member_tx h .origin

/-- **What passes as a transaction** has been written as one. -/
theorem validateTx_eq_true_iff {height : Nat} {j : Json} :
    validateTx crypto l height j = true
      ↔ ∃ t : TransactionStruct, j = t.toJson ∧ Divachain.validateTx crypto l height t = true := by
  unfold validateTx
  constructor
  · intro h
    split at h
    next t ht =>
      have hkeyed := TransactionStruct.valid_wellKeyed (validateTx_iff.mp h).1
      exact ⟨t, tx_toJson ht hkeyed, h⟩
    next => exact absurd h Bool.false_ne_true
  · rintro ⟨t, rfl, h⟩
    rw [TransactionStruct.ofJson_toJson (TransactionStruct.valid_wellKeyed (validateTx_iff.mp h).1)]
    exact h

theorem pairwise_origin {α : Type} {toJson : α → Json} {origin : α → Text} :
    ∀ {as : List α}, (∀ a ∈ as, originOf (toJson a) = some (.str (origin a))) →
      ((as.map toJson).Pairwise (fun a b => Json.sameValue (originOf b) (originOf a) = false)
        ↔ (as.map origin).Nodup)
  | [], _ => iff_of_true List.Pairwise.nil List.nodup_nil
  | a :: as, h => by
      have hfirst := h a List.mem_cons_self
      have hrest : ∀ b ∈ as, originOf (toJson b) = some (.str (origin b)) := fun b hb =>
        h b (List.mem_cons_of_mem a hb)
      rw [List.map_cons, List.map_cons, List.pairwise_cons, List.nodup_cons, pairwise_origin hrest]
      refine and_congr ?_ Iff.rfl
      rw [List.forall_mem_map, hfirst]
      constructor
      · intro hne hmem
        obtain ⟨b, hb, heq⟩ := List.mem_map.mp hmem
        have hsame := hne b hb
        rw [hrest b hb, heq] at hsame
        simp [Json.sameValue] at hsame
      · intro hnot b hb
        rw [hrest b hb]
        have hne : origin b ≠ origin a := fun heq => hnot (heq ▸ List.mem_map_of_mem hb)
        simpa [Json.sameValue] using hne

/-- Values that all pass as transactions have been written as a list of them. -/
theorem eq_map_toJson {height : Nat} :
    ∀ {js : List Json}, (∀ j ∈ js, validateTx crypto l height j = true) →
      ∃ tx : List TransactionStruct, js = tx.map TransactionStruct.toJson
        ∧ ∀ t ∈ tx, Divachain.validateTx crypto l height t = true
  | [], _ => ⟨[], rfl, fun t ht => nomatch ht⟩
  | j :: js, h => by
      obtain ⟨t, rfl, ht⟩ := validateTx_eq_true_iff.mp (h j List.mem_cons_self)
      obtain ⟨tx, rfl, htx⟩ := eq_map_toJson fun k hk => h k (List.mem_cons_of_mem _ hk)
      exact ⟨t :: tx, rfl, List.forall_mem_cons.mpr ⟨ht, htx⟩⟩

/-- **Transactions that pass the loop** have been written as transactions that
pass. -/
theorem sound_txs_iff {height : Nat} {js : List Json} :
    Sound (validateTx crypto l height) js
      ↔ ∃ tx : List TransactionStruct, js = tx.map TransactionStruct.toJson
        ∧ (tx.map TransactionStruct.origin).Nodup
        ∧ ∀ t ∈ tx, Divachain.validateTx crypto l height t = true := by
  rw [sound_iff]
  have hkeyed : ∀ t : TransactionStruct, Divachain.validateTx crypto l height t = true →
      originOf t.toJson = some (.str t.origin) := fun t ht =>
    originOf_tx (TransactionStruct.valid_wellKeyed (validateTx_iff.mp ht).1)
  constructor
  · rintro ⟨hall, hpairs⟩
    obtain ⟨tx, rfl, htx⟩ := eq_map_toJson fun j hj => (hall j hj).2
    exact ⟨tx, rfl, (pairwise_origin fun t ht => hkeyed t (htx t ht)).mp hpairs, htx⟩
  · rintro ⟨tx, rfl, hnodup, htx⟩
    refine ⟨?_, (pairwise_origin fun t ht => hkeyed t (htx t ht)).mpr hnodup⟩
    intro j hj
    obtain ⟨t, ht, rfl⟩ := List.mem_map.mp hj
    exact ⟨(fun h => nomatch h), validateTx_eq_true_iff.mpr ⟨t, rfl, htx t ht⟩⟩

end

/-! ## §6. The checks that know the shape. -/

section

variable {crypto : Crypto} {verifyOther : Option Json → Option Json → Text → Bool}
variable {l : Ledger} {c : Blockchain}

theorem eq_some_of_iff {o : Option Bool} {b : Bool} (hne : o ≠ none)
    (h : o = some true ↔ b = true) : o = some b := by
  cases o with
  | none => exact absurd rfl hne
  | some a =>
    cases a with
    | true => rw [h.mp rfl]
    | false =>
      cases b with
      | true => exact nomatch h.mpr rfl
      | false => rfl

/-- Elements that are not null and whose logged member is a text never throw. -/
theorem readable_of_text {check : Json → Bool} {shown : Text} {js : List Json}
    (h : ∀ j ∈ js, j ≠ .null ∧ ∃ t, j.member shown = some (.str t)) : Readable check shown js := by
  intro before j after hjs _
  obtain ⟨hnull, t, ht⟩ := h j (hjs ▸ List.mem_append_right before List.mem_cons_self)
  refine ⟨hnull, fun _ _ => ?_⟩
  rw [ht]
  exact rfl

theorem validateTxs_toJson {height : Nat} {tx : List TransactionStruct}
    (h : ∀ t ∈ tx, t.WellKeyed) :
    validateTxs crypto l height (tx.map TransactionStruct.toJson)
      = some (Divachain.validateTxs crypto l height [] tx) := by
  refine eq_some_of_iff (validateTxs_ne_none_iff.mpr (readable_of_text ?_)) ?_
  · intro j hj
    obtain ⟨t, ht, rfl⟩ := List.mem_map.mp hj
    exact ⟨(fun h => nomatch h), t.ident, member_tx (h t ht) .ident⟩
  · rw [validateTxs_eq_true_iff, sound_iff, Divachain.validateTxs_iff,
      pairwise_origin fun t ht => originOf_tx (h t ht)]
    have hcheck : ∀ t ∈ tx, (validateTx crypto l height t.toJson = true
        ↔ Divachain.validateTx crypto l height t = true) := by
      intro t ht
      rw [validateTx, TransactionStruct.ofJson_toJson (h t ht)]
    constructor
    · rintro ⟨hall, hnodup⟩
      refine ⟨hnodup, fun _ _ => List.not_mem_nil, fun t ht => ?_⟩
      exact (hcheck t ht).mp (hall t.toJson (List.mem_map_of_mem ht)).2
    · rintro ⟨hnodup, -, hall⟩
      refine ⟨fun j hj => ?_, hnodup⟩
      obtain ⟨t, ht, rfl⟩ := List.mem_map.mp hj
      exact ⟨(fun h => nomatch h), (hcheck t ht).mpr (hall t ht)⟩

theorem validateVotes_toJson {hash : Text} (votes : List VoteStruct) :
    validateVotes crypto verifyOther hash (votes.map VoteStruct.toJson)
      = some (Divachain.validateVotes crypto hash [] votes) := by
  refine eq_some_of_iff (validateVotes_ne_none_iff.mpr (readable_of_text ?_)) ?_
  · intro j hj
    obtain ⟨v, -, rfl⟩ := List.mem_map.mp hj
    exact ⟨(fun h => nomatch h), v.origin, rfl⟩
  · have horigin : ∀ v ∈ votes, originOf v.toJson = some (.str v.origin) := fun _ _ => rfl
    rw [validateVotes_eq_true_iff, sound_iff, Divachain.validateVotes_iff, pairwise_origin horigin]
    constructor
    · rintro ⟨hall, hnodup⟩
      exact ⟨hnodup, fun _ _ => List.not_mem_nil,
        fun v hv => (hall v.toJson (List.mem_map_of_mem hv)).2⟩
    · rintro ⟨hnodup, -, hall⟩
      refine ⟨fun j hj => ?_, hnodup⟩
      obtain ⟨v, hv, rfl⟩ := List.mem_map.mp hj
      exact ⟨(fun h => nomatch h), hall v hv⟩

theorem votersOf_toJson : ∀ votes : List VoteStruct,
    votersOf (votes.map VoteStruct.toJson) = votes.map VoteStruct.origin
  | [] => rfl
  | v :: votes => congrArg (v.origin :: ·) (votersOf_toJson votes)

/-- **On a block of the right shape** nothing throws, and the check is the one
that knows the shape. -/
theorem validateBlock_toJson {b : BlockStruct} (h : ∀ t ∈ b.tx, t.WellKeyed) :
    validateBlock crypto verifyOther l b.height b.previousHash b.toJson
      = some (Divachain.validateBlock crypto l b true) := by
  have htext : hashedText b.toJson (.arr (b.tx.map TransactionStruct.toJson)) b.previousHash b.height
      = some (hashText b.version b.previousHash b.tx b.height) := by
    show some (natText b.version ++ ',' :: (b.previousHash
      ++ ',' :: (Json.stringify (.arr (b.tx.map TransactionStruct.toJson)) ++ ',' :: natText b.height)))
      = _
    rw [stringify_txs]
    rfl
  have hquorum : ∀ hash, validateQuorum crypto verifyOther l hash
      (some (.arr (b.votes.map VoteStruct.toJson)))
        = some (Divachain.validateVotes crypto hash [] b.votes
          && l.hasQuorumWeighted (b.votes.map VoteStruct.origin)) := by
    intro hash
    show (validateVotes crypto verifyOther hash (b.votes.map VoteStruct.toJson)).bind _ = _
    rw [validateVotes_toJson, Option.bind_some, votersOf_toJson]
    cases Divachain.validateVotes crypto hash [] b.votes with
    | true => rfl
    | false => rfl
  unfold validateBlock Divachain.validateBlock
  show (if (!(b.tx.map TransactionStruct.toJson).isEmpty) = true then _ else some false) = _
  rw [List.isEmpty_map]
  by_cases hempty : b.tx.isEmpty = true
  · rw [if_pos hempty, hempty]
    rfl
  rw [if_neg hempty, if_pos (by simpa using hempty), htext]
  show (if isText (some (.str b.hash)) (crypto.hash _) = true then _ else some false) = _
  have hsame : ∀ t, isText (some (.str b.hash)) t = true ↔ t = b.hash := by
    intro t
    show (b.hash == t) = true ↔ _
    rw [beq_iff_eq, eq_comm]
  by_cases hhash : crypto.hash (hashText b.version b.previousHash b.tx b.height) = b.hash
  · rw [if_pos ((hsame _).mpr hhash), if_neg (not_not.mpr hhash)]
    show (validateTxs crypto l b.height (b.tx.map TransactionStruct.toJson)).bind _ = _
    rw [validateTxs_toJson h, Option.bind_some]
    cases Divachain.validateTxs crypto l b.height [] b.tx with
    | false => rfl
    | true =>
      show validateQuorum crypto verifyOther l _ (some (.arr (b.votes.map VoteStruct.toJson))) = _
      rw [hhash]
      exact hquorum b.hash
  · rw [if_neg fun heq => hhash ((hsame _).mp heq), if_pos hhash]

/-- **The guard of `add` on a block of the right shape.** -/
theorem accepts_toJson {b : BlockStruct} (h : ∀ t ∈ b.tx, t.WellKeyed) :
    accepts crypto verifyOther c b.toJson = some (c.accepts crypto b) := by
  have hnext : isNext c b.toJson
      = (decide (c.height + 1 = b.height)
        && decide (c.latestBlock.map BlockStruct.hash = some b.previousHash)) := by
    rw [Bool.eq_iff_iff]
    show Json.sameValue (some (.int b.height)) (some (.int (c.height + 1)))
        && Json.sameValue (some (.str b.previousHash)) (c.latestBlock.map fun b => .str b.hash) ↔ _
    rw [Bool.and_eq_true, Bool.and_eq_true, decide_eq_true_eq, decide_eq_true_eq]
    refine and_congr ?_ ?_
    · show ((b.height : Int) == c.height + 1) = true ↔ _
      rw [beq_iff_eq]
      omega
    · cases c.latestBlock with
      | none => exact iff_of_false Bool.false_ne_true fun h => nomatch h
      | some latest =>
        show (b.previousHash == latest.hash) = true ↔ some latest.hash = some b.previousHash
        rw [beq_iff_eq, Option.some.injEq, eq_comm]
  unfold Blockchain.accepts
  rw [← hnext]
  show (if isNext c b.toJson = true then _ else some false) = _
  by_cases hn : isNext c b.toJson = true
  · rw [if_pos hn, hn, Bool.true_and]
    rw [hnext, Bool.and_eq_true, decide_eq_true_eq, decide_eq_true_eq] at hn
    have hlatest : latestHash c = b.previousHash := by
      rw [latestHash, hn.2]
      rfl
    rw [hn.1, hlatest]
    exact validateBlock_toJson h
  · rw [if_neg hn, Bool.eq_false_iff.mpr hn]
    rfl

end

end Untyped

end Divachain
