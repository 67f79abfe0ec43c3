/-
  Divachain.Chain.Signed — what the signature of a transaction covers.

  An origin signs the height and the text of its commands.  Whoever passes the
  transaction on can therefore change neither of them; the identifier is
  outside of the signed text, for the signer as for the one who verifies.

  Main result:
    * `signed_once` — one signature stands for one height and one list of
      commands.
-/
import Divachain.Chain.Run

namespace Divachain

open DataKit

variable {crypto : Crypto}

/-- **One signature, one height and one list of commands.** -/
theorem validateTx_unique (hunique : crypto.SignUnique) {l l' : Ledger} {height height' : Nat}
    {t t' : TransactionStruct} (ht : validateTx crypto l height t = true)
    (ht' : validateTx crypto l' height' t' = true) (horigin : t.origin = t'.origin)
    (hsig : t.sig = t'.sig) : height = height' ∧ t.commands = t'.commands := by
  obtain ⟨hvalid, -, hverify, -⟩ := validateTx_iff.mp ht
  obtain ⟨hvalid', -, hverify', -⟩ := validateTx_iff.mp ht'
  rw [← horigin, ← hsig] at hverify'
  have htext := hunique _ _ _ _ hverify hverify'
  exact signedText_unique (TransactionStruct.valid_wellKeyed hvalid).2
    (TransactionStruct.valid_wellKeyed hvalid').2 htext

/-- A block that passes has passed with each of its transactions. -/
theorem validateTx_of_mem {l : Ledger} {b : BlockStruct} {doVoteValidation : Bool}
    (hb : validateBlock crypto l b doVoteValidation = true) {t : TransactionStruct} (ht : t ∈ b.tx) :
    validateTx crypto l b.height t = true := by
  cases doVoteValidation with
  | false => exact (validateBlock_false_iff.mp hb).txs t ht
  | true => exact (validateBlock_true_iff.mp hb).1.txs t ht

/-- **Committed transactions are what their origin signed**: whoever puts a
transaction into a block can neither change its commands nor use it at another
height. -/
theorem signed_once (hunique : crypto.SignUnique) :
    (∀ l l' height height' t t', validateTx crypto l height t = true →
        validateTx crypto l' height' t' = true → t.origin = t'.origin → t.sig = t'.sig →
          height = height' ∧ t.commands = t'.commands)
      ∧ ∀ l l' b b' doVoteValidation doVoteValidation',
        validateBlock crypto l b doVoteValidation = true →
        validateBlock crypto l' b' doVoteValidation' = true →
          ∀ t ∈ b.tx, ∀ t' ∈ b'.tx, t.origin = t'.origin → t.sig = t'.sig →
            b.height = b'.height ∧ t.commands = t'.commands := by
  constructor
  · intro l l' height height' t t' ht ht' horigin hsig
    exact validateTx_unique hunique ht ht' horigin hsig
  · intro l l' b b' doVoteValidation doVoteValidation' hb hb' t ht t' ht' horigin hsig
    exact validateTx_unique hunique (validateTx_of_mem hb ht) (validateTx_of_mem hb' ht') horigin
      hsig

namespace Blockchain

/-- The transaction of the second block cannot come back in the third. -/
theorem signed_once_of_sample :
    validateTx sampleCrypto (sampleLive 0 [0, 1]).toLedger 3 sampleTx = false := by
  have hsecond : validateTx sampleCrypto (sampleStart 0).toLedger 2 sampleTx = true := by
    decide +kernel
  rw [← Bool.not_eq_true]
  intro hthird
  have hheight := ((signed_once (tableCrypto_signUnique _ _)).1 _ _ 2 3 sampleTx sampleTx hsecond
    hthird rfl rfl).1
  exact absurd hheight (by decide)

/-- **The identifier is not signed**: two blocks that pass have one transaction
under two names. -/
theorem ident_not_signed :
    sampleCrypto.SignUnique
      ∧ validateBlock sampleCrypto (sampleStart 0).toLedger (sampleBlock [0, 1]) true = true
      ∧ validateBlock sampleCrypto (sampleStart 0).toLedger (sampleRival [0, 1]) true = true
      ∧ ∃ t ∈ (sampleBlock [0, 1]).tx, ∃ t' ∈ (sampleRival [0, 1]).tx,
        t.origin = t'.origin ∧ t.sig = t'.sig ∧ t.ident ≠ t'.ident := by
  refine ⟨tableCrypto_signUnique _ _, by decide +kernel, by decide +kernel, ?_⟩
  refine ⟨_, List.mem_singleton.mpr rfl, _, List.mem_singleton.mpr rfl, rfl, rfl, ?_⟩
  decide

end Blockchain

end Divachain
