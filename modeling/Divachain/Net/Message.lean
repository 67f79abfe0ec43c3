/-
  Divachain.Net.Message — the messages nodes exchange.

  A message carries the key of the node that made it; the signature around
  the whole message is checked when it is unpacked, before anything here sees
  it.  `validateMessage` is the stateless check on what arrives.
-/
import Divachain.Chain.Schema

namespace Divachain

def ONLINE : Nat := 1

inductive MessageData where
  | addTx (height : Nat) (tx : TransactionStruct)
  | proposeBlock (block : BlockStruct)
  | signBlock (hash sig : Text)
  | confirmBlock (hash : Text) (votes : List VoteStruct)
  | status (kind height : Nat)
  deriving DecidableEq, Repr

structure Message where
  seq : Nat
  origin : Text
  dest : Text
  data : MessageData
  deriving DecidableEq, Repr

/-- `add-tx.json` to `status.json`. -/
def MessageData.valid : MessageData → Bool
  | .addTx height tx => decide (1 ≤ height) && tx.valid
  | .proposeBlock block => block.valid
  | .signBlock hash sig => isKeyText hash && isSigText sig
  | .confirmBlock hash votes => isKeyText hash && validVotes votes
  | .status kind height => decide (1 ≤ kind) && decide (1 ≤ height)

/-- `Validation.validateMessage`. -/
def validateMessage (m : Message) : Bool :=
  decide (1 ≤ m.seq) && isKeyText m.origin && (m.dest.isEmpty || isKeyText m.dest) && m.data.valid

/-- The votes a message carries. -/
def MessageData.votes : MessageData → List VoteStruct
  | .proposeBlock block => block.votes
  | .confirmBlock _ votes => votes
  | _ => []

end Divachain
