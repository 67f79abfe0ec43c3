/-
  Divachain.Net.Separation — one key signs four kinds of texts.

  A vote signs a block hash, a transaction its height and its commands, a
  message its encoded payload, and a node that joins signs a token that
  another peer has chosen.  No text says of which kind it is.  They are told
  apart by their alphabets and lengths: a transaction has a bracket in it,
  the length of a payload is a multiple of four, a hash has 43 characters and
  a token 32 — fewer than any transaction.

  Main results:
    * `length_signedText` — a transaction is longer than a token;
    * `signatures_separated` — a signature of one kind never verifies as one
      of another.
-/
import Divachain.Net.Pack
import Divachain.Net.Proposal

namespace Divachain

open DataKit

/-! ## §1. The challenge. -/

def LENGTH_TOKEN : Nat := 32

/-- The token is signed: the node has asked to join, and the length fits. -/
def Challenged (isJoiningNetwork : Bool) (token : Text) : Prop :=
  isJoiningNetwork = true ∧ utf16Length token = LENGTH_TOKEN

instance (isJoiningNetwork : Bool) (token : Text) : Decidable (Challenged isJoiningNetwork token) :=
  inferInstanceAs (Decidable (_ ∧ _))

/-- `challenge`: the answer, and `isJoiningNetwork` afterwards. -/
def challenge (crypto : Crypto) (publicKey : Text) (isJoiningNetwork : Bool) (token : Text) :
    Text × Bool :=
  (if Challenged isJoiningNetwork token then crypto.sign publicKey token else [], false)

/-! ## §2. What is signed. -/

inductive SignedKind where
  | vote
  | transaction
  | message
  deriving DecidableEq, Repr

/-- **The texts a node signs as one of each kind.** -/
def SignedAs (crypto : Crypto) (p : Packer) : SignedKind → Text → Prop
  -- whatever `Util.hash` returns
  | .vote, t => ∃ d, t = crypto.hash d
  | .transaction, t => ∃ height commands,
      (commands.all Command.valid && arrayWithin Command.same 1 16 commands) = true
        ∧ t = signedText height commands
  -- a payload that gets through `_unpack`
  | .message, t => ∃ data sig inflated origin j,
      Unpacks crypto p.codec data t sig inflated origin j

/-- `base64url.parse` is strict: it rejects characters outside its alphabet and
texts that have not been padded. -/
def Packer.Strict (p : Packer) : Prop :=
  ∀ t b, p.parse t = some b → t.length % 4 = 0 ∧ ∀ c ∈ t, isBase64Url c = true ∨ c = '='

/-! ## §3. How long a transaction is. -/

/-- The names of the properties, as the object has them. -/
theorem Command.members_names {c : Command} (h : c.WellKeyed) :
    c.members.map Prod.fst = c.keys.map Field.name := by
  have hsome : ∀ f ∈ c.keys, (c.value f).isSome = true := fun f hf =>
    c.value_isSome f (h.mem_iff.mp hf)
  unfold members
  generalize c.keys = keys at hsome
  induction keys with
  | nil => rfl
  | cons f keys ih =>
    obtain ⟨v, hv⟩ := Option.isSome_iff_exists.mp (hsome f List.mem_cons_self)
    rw [List.filterMap_cons_some (b := (f.name, v)) (by rw [hv]; rfl), List.map_cons, List.map_cons,
      ih fun g hg => hsome g (List.mem_cons_of_mem f hg)]

/-- A member has at least a quoted name, a colon and one character. -/
theorem length_memberText (e : Text × (Text ⊕ Int)) :
    e.1.length + 4 ≤ (memberText leafText e).length := by
  have hname := length_le_quote e.1
  have hleaf : 1 ≤ (leafText e.2).length := by
    cases e.2 with
    | inl t =>
      have hquote := length_le_quote t
      show 1 ≤ (quote t).length
      omega
    | inr n => exact List.length_pos_iff.mpr (intText_ne_nil n)
  rw [memberText, List.length_append, List.length_cons]
  omega

/-- The shortest command is one for data. -/
theorem length_command {c : Command} (h : c.WellKeyed) :
    31 ≤ (objText leafText c.members).length := by
  have hfields : 29 ≤ (c.body.fields.map fun f => f.name.length + 4).sum := by
    cases c.body <;> simp [CommandBody.fields, Field.name]
  have hkeys : (c.members.map fun e => e.1.length + 4).sum
      = (c.body.fields.map fun f => f.name.length + 4).sum := by
    have hnames : (c.members.map fun e => e.1.length + 4)
        = (c.members.map Prod.fst).map fun t => t.length + 4 := by
      rw [List.map_map]
      rfl
    rw [hnames, Command.members_names h, List.map_map]
    exact (h.map fun f : Field => f.name.length + 4).sum_eq
  have hmembers : (c.members.map fun e => e.1.length + 4).sum
      ≤ (c.members.map fun e => (memberText leafText e).length).sum :=
    List.sum_le_sum fun e _ => length_memberText e
  have hitems := sum_length_le_items (memberText leafText) c.members
  rw [objText, List.length_cons, List.length_append, List.length_singleton]
  omega

/-- **A transaction is longer than a token**, at any height. -/
theorem length_signedText {commands : List Command}
    (hvalid : (commands.all Command.valid && arrayWithin Command.same 1 16 commands) = true)
    (height : Nat) : 34 ≤ (signedText height commands).length := by
  rw [Bool.and_eq_true, List.all_eq_true, arrayWithin, Bool.and_eq_true, Bool.and_eq_true,
    decide_eq_true_eq] at hvalid
  obtain ⟨hall, ⟨hone, -⟩, -⟩ := hvalid
  obtain ⟨c, cs, rfl⟩ := List.exists_cons_of_length_pos hone
  have hcommand := length_command (Command.valid_wellKeyed (hall c List.mem_cons_self))
  have hheight : 1 ≤ (natText height).length := List.length_pos_iff.mpr (natText_ne_nil height)
  have hitems := sum_length_le_items (objText leafText) ((c :: cs).map Command.members)
  rw [List.map_cons, List.map_cons, List.sum_cons] at hitems
  rw [signedText, stringifyCommands, arrText, List.length_append, List.length_cons,
    List.length_append, List.length_singleton, List.map_cons]
  omega

/-! ## §4. The kinds are told apart. -/

theorem length_le_utf16Length : ∀ t : Text, t.length ≤ utf16Length t
  | [] => Nat.le_refl 0
  | c :: t => by
      have hrest := length_le_utf16Length t
      unfold utf16Length at hrest ⊢
      rw [List.map_cons, List.sum_cons, List.length_cons]
      split <;> omega

/-- The bracket that only a transaction has. -/
theorem bracket_mem_signedText (height : Nat) (commands : List Command) :
    '[' ∈ signedText height commands := by
  rw [signedText, stringifyCommands, arrText]
  exact List.mem_append_right _ List.mem_cons_self

section

variable {crypto : Crypto} {p : Packer}

/-- What the text of each kind is known by: whether it has a bracket, and its
length. -/
theorem signedAs_shape (hhash : ∀ d, isKeyText (crypto.hash d) = true) (hstrict : p.Strict)
    {kind : SignedKind} {t : Text} (h : SignedAs crypto p kind t) :
    ('[' ∈ t ↔ kind = .transaction) ∧ (t.length = 43 ∨ kind ≠ .vote)
      ∧ (t.length % 4 = 0 ∨ kind ≠ .message) ∧ (34 ≤ t.length ∨ kind = .message) := by
  have hno : ¬ (isBase64Url '[' = true ∨ '[' = '=') := by decide
  cases kind with
  | vote =>
    obtain ⟨d, rfl⟩ := h
    have hkey := hhash d
    rw [isKeyText, matchesRun, Bool.and_eq_true, Bool.and_eq_true, decide_eq_true_eq,
      decide_eq_true_eq, List.all_eq_true] at hkey
    obtain ⟨⟨hchars, hlo⟩, hhi⟩ := hkey
    refine ⟨⟨fun hmem => ?_, fun heq => nomatch heq⟩, ?_, ?_, ?_⟩
    · exact absurd (Or.inl (hchars _ hmem)) hno
    · exact Or.inl (by omega)
    · exact Or.inr (by decide)
    · exact Or.inl (by omega)
  | transaction =>
    obtain ⟨height, commands, hvalid, rfl⟩ := h
    have hlength := length_signedText hvalid height
    refine ⟨⟨fun _ => rfl, fun _ => bracket_mem_signedText height commands⟩, ?_, ?_, ?_⟩
    · exact Or.inr (by decide)
    · exact Or.inr (by decide)
    · exact Or.inl hlength
  | message =>
    obtain ⟨data, sig, inflated, origin, j, hunpacks⟩ := h
    obtain ⟨b, hparse, -⟩ := Option.bind_eq_some_iff.mp hunpacks.inflate
    obtain ⟨hlength, hchars⟩ := hstrict t b hparse
    refine ⟨⟨fun hmem => absurd (hchars _ hmem) hno, fun heq => nomatch heq⟩, ?_, ?_, ?_⟩
    · exact Or.inr (by decide)
    · exact Or.inl hlength
    · exact Or.inr rfl

/-- **Texts of two kinds are different.** -/
theorem signedAs_ne (hhash : ∀ d, isKeyText (crypto.hash d) = true) (hstrict : p.Strict)
    {kind kind' : SignedKind} (hkind : kind ≠ kind') {t t' : Text} (h : SignedAs crypto p kind t)
    (h' : SignedAs crypto p kind' t') : t ≠ t' := by
  rintro rfl
  obtain ⟨hbracket, hvote, hmessage, -⟩ := signedAs_shape hhash hstrict h
  obtain ⟨hbracket', hvote', hmessage', -⟩ := signedAs_shape hhash hstrict h'
  cases kind with
  | transaction => exact hkind (hbracket'.mp (hbracket.mpr rfl)).symm
  | vote =>
    cases kind' with
    | vote => exact hkind rfl
    | transaction => exact hkind (hbracket.mp (hbracket'.mpr rfl))
    | message =>
      -- 43 is no multiple of four
      have hlength := hvote.resolve_right (not_not.mpr rfl)
      have hpadded := hmessage'.resolve_right (not_not.mpr rfl)
      omega
  | message =>
    cases kind' with
    | message => exact hkind rfl
    | transaction => exact hkind (hbracket.mp (hbracket'.mpr rfl))
    | vote =>
      have hlength := hvote'.resolve_right (not_not.mpr rfl)
      have hpadded := hmessage.resolve_right (not_not.mpr rfl)
      omega

/-- **A token is neither a vote nor a transaction.** -/
theorem challenged_ne (hhash : ∀ d, isKeyText (crypto.hash d) = true) (hstrict : p.Strict)
    {isJoiningNetwork : Bool} {token : Text} (htoken : Challenged isJoiningNetwork token)
    {kind : SignedKind} (hkind : kind ≠ .message) {t : Text} (h : SignedAs crypto p kind t) :
    token ≠ t := by
  rintro rfl
  obtain ⟨-, -, -, hlong⟩ := signedAs_shape hhash hstrict h
  have hlength := hlong.resolve_right hkind
  have hunits := length_le_utf16Length token
  rw [htoken.2, LENGTH_TOKEN] at hunits
  omega

/-- **The challenge is no signing oracle.**  Votes, transactions and messages are
signed for different texts, and none of their signatures verifies as one of
another kind; a signed token verifies neither as a vote nor as a transaction. -/
theorem signatures_separated (hhash : ∀ d, isKeyText (crypto.hash d) = true) (hstrict : p.Strict)
    (hsound : crypto.SignSound) (publicKey : Text) :
    (∀ kind kind' : SignedKind, kind ≠ kind' → ∀ t t', SignedAs crypto p kind t →
      SignedAs crypto p kind' t' →
        t ≠ t' ∧ ¬ crypto.verifySignature publicKey (crypto.sign publicKey t) t' = true)
    ∧ ∀ isJoiningNetwork token, Challenged isJoiningNetwork token →
      ∀ kind : SignedKind, kind ≠ .message → ∀ t, SignedAs crypto p kind t →
        token ≠ t ∧ ¬ crypto.verifySignature publicKey
          (challenge crypto publicKey isJoiningNetwork token).1 t = true := by
  constructor
  · intro kind kind' hkind t t' h h'
    have hne := signedAs_ne hhash hstrict hkind h h'
    exact ⟨hne, fun hverified => hne (hsound _ _ _ hverified)⟩
  · intro isJoiningNetwork token htoken kind hkind t h
    have hne := challenged_ne hhash hstrict htoken hkind h
    refine ⟨hne, fun hverified => hne (hsound publicKey _ _ ?_)⟩
    rw [challenge, if_pos htoken] at hverified
    exact hverified

end

/-! ## §5. A vote and a transaction. -/

/-- Every hash is the same, and every signature is marked with its text. -/
def markedCrypto : Crypto := { tableCrypto [] [] with hash := fun _ => label 43 0 }

/-- Base64url for one message. -/
def markedPacker : Packer :=
  { statusPacker with parse := fun t => if t = statusWire then some statusDeflated else none }

theorem markedPacker_strict : markedPacker.Strict := by
  have hlength : statusWire.length % 4 = 0 := by decide +kernel
  intro t b hparse
  change (if t = statusWire then some statusDeflated else none) = some b at hparse
  split at hparse
  next heq =>
    subst heq
    exact ⟨hlength, statusWire_alphabet⟩
  next => exact nomatch hparse

theorem signatures_separated_of_sample :
    (label 43 0 ≠ signedText 2 [addPeerOf 0] ∧ ¬ markedCrypto.verifySignature (keyOf 0)
        (markedCrypto.sign (keyOf 0) (label 43 0)) (signedText 2 [addPeerOf 0]) = true)
      ∧ label 32 0 ≠ label 43 0 ∧ ¬ markedCrypto.verifySignature (keyOf 0)
        (challenge markedCrypto (keyOf 0) true (label 32 0)).1 (label 43 0) = true := by
  have hhash : ∀ d, isKeyText (markedCrypto.hash d) = true := by
    intro d
    show isKeyText (label 43 0) = true
    decide +kernel
  have hsound : markedCrypto.SignSound :=
    fun pk d d' h => (tableCrypto_signBinding [] [] pk pk d d' h).2
  have hvote : SignedAs markedCrypto markedPacker .vote (label 43 0) := ⟨[], rfl⟩
  have htransaction : SignedAs markedCrypto markedPacker .transaction
      (signedText 2 [addPeerOf 0]) := ⟨2, [addPeerOf 0], by decide +kernel, rfl⟩
  obtain ⟨hkinds, htokens⟩ := signatures_separated hhash markedPacker_strict hsound (keyOf 0)
  exact ⟨hkinds .vote .transaction (by decide) _ _ hvote htransaction,
    htokens true (label 32 0) (by decide +kernel) .vote (by decide) _ hvote⟩

end Divachain
