/-
  Divachain.Chain.Util — texts, and the library the chain signs and hashes with.

  Strings are character lists.  Hashing, signing and signature checking are
  done by sodium, which is not part of the repository: they are the fields
  of `Crypto`, and every result that needs a property of them names it.
-/
import Divachain.Lib.JsonText
import Mathlib.Data.List.Lex

namespace Divachain

open DataKit

abbrev Text := List Char

/-- Named, so that membership in a list of texts is decided by the same proof everywhere. -/
instance : LawfulBEq Text := inferInstance

/-- `Util.hash`, `Wallet.sign` and `Util.verifySignature`.  A wallet is named by
its public key; its signatures are deterministic. -/
structure Crypto where
  hash : Text → Text
  sign : Text → Text → Text
  verifySignature : Text → Text → Text → Bool

namespace Crypto

variable (crypto : Crypto)

/-- Different texts have different hashes. -/
def HashInjective : Prop := Function.Injective crypto.hash

/-- A signature a wallet made verifies for nothing but what it signed. -/
def SignSound : Prop :=
  ∀ pk d d', crypto.verifySignature pk (crypto.sign pk d) d' = true → d = d'

/-- A signature verifies under the key it was made with, for the signed text only. -/
def SignBinding : Prop :=
  ∀ pk pk' d d', crypto.verifySignature pk' (crypto.sign pk d) d' = true → pk = pk' ∧ d = d'

/-- A signature verifies under a key for one text at most. -/
def SignUnique : Prop :=
  ∀ pk sig d d', crypto.verifySignature pk sig d = true → crypto.verifySignature pk sig d' = true →
    d = d'

/-- A wallet accepts its own signatures. -/
def SignCorrect : Prop :=
  ∀ pk d, crypto.verifySignature pk (crypto.sign pk d) d = true

theorem SignBinding.sound {crypto : Crypto} (h : crypto.SignBinding) : crypto.SignSound :=
  fun pk d d' hv => (h pk pk d d' hv).2

end Crypto

/-- `t.length`: a character outside the first plane counts twice. -/
def utf16Length (t : Text) : Nat := (t.map fun c => if c.toNat < 0x10000 then 1 else 2).sum

/-- `Util.stringDiff`; `none` where the code throws. -/
def stringDiff (a b : Text) : Option Nat :=
  if a.length = 0 ∨ a.length ≠ b.length then none
  else some ((List.zipWith
    (fun c d => (Int.natAbs ((c.toNat : Int) - (d.toNat : Int)))) a b).sum)

end Divachain
