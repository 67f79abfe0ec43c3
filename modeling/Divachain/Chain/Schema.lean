/-
  Divachain.Chain.Schema — what the JSON schemas admit.

  The checks compiled from `schema/block/v7`: one definition for each schema
  file, and one for each shape the files share.  A value that passes has
  exactly its required properties (`Command.valid_wellKeyed`,
  `TransactionStruct.valid_wellKeyed`), in the order its sender chose.
-/
import Divachain.Chain.Block

namespace Divachain

/-! ## §1. Shapes the schemas share. -/

/-- `[A-Za-z0-9_-]`. -/
def isBase64Url (c : Char) : Bool := c.isAlphanum || c == '_' || c == '-'

/-- The pattern `^[..]{lo,hi}$`. -/
def matchesRun (p : Char → Bool) (lo hi : Nat) (t : Text) : Bool :=
  t.all p && decide (lo ≤ t.length) && decide (t.length ≤ hi)

/-- `^[A-Za-z0-9_-]{43}$`, the shape of public keys and of hashes. -/
def isKeyText (t : Text) : Bool := matchesRun isBase64Url 43 43 t

/-- `^[A-Za-z0-9_-]{86}$`. -/
def isSigText (t : Text) : Bool := matchesRun isBase64Url 86 86 t

/-- `^[A-Za-z0-9_-]{1,32}$`. -/
def isIdentText (t : Text) : Bool := matchesRun isBase64Url 1 32 t

/-- `[A-Za-z_-]`. -/
def isNamespaceChar (c : Char) : Bool := c.isAlpha || c == '_' || c == '-'

/-- `^([A-Za-z_-]{4,15}:){1,4}[A-Za-z0-9_-]{1,64}$`.  No class contains the
colon, so the parts are what stands between the colons. -/
def isNamespace (t : Text) : Bool :=
  let parts := t.splitOn ':'
  decide (2 ≤ parts.length) && decide (parts.length ≤ 5)
    && parts.dropLast.all (matchesRun isNamespaceChar 4 15)
    && (parts.getLast?).any (matchesRun isBase64Url 1 64)

/-- `minLength`, `maxLength`. -/
def lengthWithin (lo hi : Nat) (t : Text) : Bool :=
  decide (lo ≤ t.length) && decide (t.length ≤ hi)

/-- `minItems`, `maxItems` and `uniqueItems`, where `same` is equality of items. -/
def arrayWithin {α : Type} (same : α → α → Bool) (lo hi : Nat) (l : List α) : Bool :=
  decide (lo ≤ l.length) && decide (l.length ≤ hi)
    && decide (l.Pairwise fun a b => same a b = false)

/-! ## §2. One check for each schema. -/

/-- `add-peer.json` to `decision.json`, without `seq` and the property names. -/
def CommandBody.valid : CommandBody → Bool
  | .addPeer http udp publicKey =>
      lengthWithin 1 1024 http && lengthWithin 1 1024 udp && isKeyText publicKey
  | .removePeer publicKey => isKeyText publicKey
  | .modifyStake publicKey ident stake =>
      isKeyText publicKey && isIdentText ident
        && decide (-1000 ≤ stake) && decide (stake ≤ 1000)
  | .data ns d => isNamespace ns && lengthWithin 0 8192 d
  | .decision ns h d => isNamespace ns && decide (2 ≤ h) && lengthWithin 0 8192 d

def Command.valid (c : Command) : Bool :=
  decide (1 ≤ c.seq) && c.body.valid && c.keys.isPerm c.body.fields

/-- Deep equality of commands, which does not see the order of properties. -/
def Command.same (c d : Command) : Bool := decide (c.seq = d.seq) && decide (c.body = d.body)

/-- `tx.json`. -/
def TransactionStruct.valid (t : TransactionStruct) : Bool :=
  isIdentText t.ident && isKeyText t.origin
    && (t.commands.all Command.valid && arrayWithin Command.same 1 16 t.commands)
    && isSigText t.sig && t.keys.isPerm TransactionStruct.fields

/-- Deep equality of two command lists. -/
def sameCommands : List Command → List Command → Bool
  | [], [] => true
  | c :: l, d :: m => c.same d && sameCommands l m
  | _, _ => false

/-- Deep equality of transactions. -/
def TransactionStruct.same (t u : TransactionStruct) : Bool :=
  decide (t.ident = u.ident) && decide (t.origin = u.origin)
    && sameCommands t.commands u.commands && decide (t.sig = u.sig)

/-- `vote.json`. -/
def VoteStruct.valid (v : VoteStruct) : Bool := isKeyText v.origin && isSigText v.sig

/-- The array of votes in `block.json` and in `confirm-block.json`. -/
def validVotes (votes : List VoteStruct) : Bool :=
  votes.all VoteStruct.valid && arrayWithin (fun v w => decide (v = w)) 1 16 votes

/-- `block.json`. -/
def BlockStruct.valid (b : BlockStruct) : Bool :=
  decide (b.version = BLOCK_VERSION) && isKeyText b.previousHash && isKeyText b.hash
    && (b.tx.all TransactionStruct.valid && arrayWithin TransactionStruct.same 1 16 b.tx)
    && decide (1 ≤ b.height) && validVotes b.votes

/-! ## §3. What a valid object looks like. -/

theorem Command.valid_wellKeyed {c : Command} (h : c.valid = true) : c.WellKeyed := by
  unfold Command.valid at h
  rw [Bool.and_eq_true] at h
  exact List.isPerm_iff.mp h.2

theorem TransactionStruct.valid_commands {t : TransactionStruct} (h : t.valid = true)
    {c : Command} (hc : c ∈ t.commands) : c.valid = true := by
  unfold TransactionStruct.valid at h
  simp only [Bool.and_eq_true, List.all_eq_true] at h
  exact h.1.1.2.1 c hc

theorem TransactionStruct.valid_wellKeyed {t : TransactionStruct} (h : t.valid = true) :
    t.WellKeyed := by
  refine ⟨?_, fun c hc => Command.valid_wellKeyed (valid_commands h hc)⟩
  unfold TransactionStruct.valid at h
  rw [Bool.and_eq_true] at h
  exact List.isPerm_iff.mp h.2

end Divachain
