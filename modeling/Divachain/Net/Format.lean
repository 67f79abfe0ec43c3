/-
  Divachain.Net.Format — the format of a block that the sync loop adds.

  A gossiped block has passed `block.json` before anybody looks at it.  A synced
  one has passed the guard of `add` only.  If the peers with stake vote for
  schema-valid blocks only, the hash they have voted for fixes what it covers:
  the text of the version, the previous hash, the transactions and the height.
  It does not cover the votes, other members of the block, nor whether the
  version is a number or a text.

  Main results:
    * `signed_of_accepts` — the block the voters have signed;
    * `synced_format_iff` — when an accepted block has the format of a gossiped
      one.
-/
import Divachain.Lib.JsonSuffix
import Divachain.Net.Untyped
import Divachain.Chain.Accounting

namespace Divachain

open DataKit

namespace Untyped

variable {crypto : Crypto} {verifyOther : Option Json → Option Json → Text → Bool}
variable {c : Blockchain} {l : Ledger}

/-! ## §1. A hashed text taken apart. -/

theorem lettered_members {tx : List TransactionStruct} (hne : tx ≠ [])
    (h : ∀ t ∈ tx, t.WellKeyed) : Lettered (tx.map TransactionStruct.members) := by
  obtain ⟨t, rest, rfl⟩ := List.exists_cons_of_ne_nil hne
  have hkeys : t.keys ≠ [] := by
    intro hnil
    have hperm := (h t List.mem_cons_self).1
    rw [hnil] at hperm
    exact absurd hperm.length_eq (by decide)
  obtain ⟨f, fs, hfs⟩ := List.exists_cons_of_ne_nil hkeys
  have hname : ∃ k s, f.name = k :: s ∧ k.isAlpha = true ∧ escapeChar k = [k] := by
    cases f with
    | ident => exact ⟨_, _, rfl, by decide, by decide⟩
    | origin => exact ⟨_, _, rfl, by decide, by decide⟩
    | commands => exact ⟨_, _, rfl, by decide, by decide⟩
    | sig => exact ⟨_, _, rfl, by decide, by decide⟩
  obtain ⟨k, s, hks, halpha, hplain⟩ := hname
  refine ⟨k, s, t.value f, fs.map fun k => (k.name, t.value k), rest.map TransactionStruct.members,
    ?_, halpha, hplain⟩
  rw [List.map_cons, TransactionStruct.members, hfs, List.map_cons, hks]

theorem clears_txValue : Clears txValueText :=
  clears_sum clears_quote (clears_arr (clears_obj (clears_sum clears_quote clears_int))
    unbracketed_obj)

/-- The height stands at the far end. -/
theorem height_split {x y : Text} {h k : Nat} (heq : x ++ ',' :: natText h = y ++ ',' :: natText k) :
    x = y ∧ h = k := by
  have hstop : ∀ z : Text, StopsAt (fun c => c.isDigit = true) (',' :: z) := fun _ => by
    show ¬ (',' : Char).isDigit = true
    decide
  have hrev := congrArg List.reverse heq
  rw [List.reverse_append, List.reverse_append, List.reverse_cons, List.reverse_cons,
    List.append_assoc, List.append_assoc] at hrev
  obtain ⟨hheight, hrest⟩ := span_unique (P := fun c => c.isDigit = true)
    (fun _ hc => isDigit_of_mem_natText (List.mem_reverse.mp hc))
    (fun _ hc => isDigit_of_mem_natText (List.mem_reverse.mp hc)) (hstop _) (hstop _) hrev
  exact ⟨List.reverse_inj.mp (List.cons.inj hrest).2, natText_injective (List.reverse_inj.mp hheight)⟩

/-- Two texts with one comma between them, of which the first two have none. -/
theorem comma_split {v x w y : Text} (hw : ',' ∉ w) (hy : ',' ∉ y)
    (h : v ++ ',' :: x = w ++ ',' :: y) : v = w ∧ x = y := by
  have hcount := congrArg (List.count ',') h
  rw [List.count_append, List.count_append, List.count_cons_self, List.count_cons_self,
    List.count_eq_zero.mpr hw, List.count_eq_zero.mpr hy] at hcount
  have hv : ',' ∉ v := List.count_eq_zero.mp (by omega)
  have hstop : ∀ z : Text, StopsAt (fun c => c ≠ ',') (',' :: z) := fun _ hc => hc rfl
  obtain ⟨hvw, hxy⟩ := span_unique (P := fun c => c ≠ ',')
    (fun _ hc heq => hv (heq ▸ hc)) (fun _ hc heq => hw (heq ▸ hc)) (hstop x) (hstop y) h
  exact ⟨hvw, (List.cons.inj hxy).2⟩

theorem not_mem_of_isKeyText {t : Text} (h : isKeyText t = true) : ',' ∉ t := by
  unfold isKeyText matchesRun at h
  rw [Bool.and_eq_true, Bool.and_eq_true, List.all_eq_true] at h
  exact fun hmem => absurd (h.1.1 ',' hmem) (by decide)

theorem not_mem_natText (n : Nat) : ',' ∉ natText n := fun h =>
  absurd (isDigit_of_mem_natText h) (by decide)

/-- **The text of a valid block** can be taken apart, whatever the version of the
other text is. -/
theorem joined_unique {version previousHash : Text} {tx : List TransactionStruct} {height : Nat}
    {b : BlockStruct} (hne : tx ≠ []) (htx : ∀ t ∈ tx, t.WellKeyed) (hbne : b.tx ≠ [])
    (hbtx : ∀ t ∈ b.tx, t.WellKeyed) (hprevious : isKeyText b.previousHash = true)
    (h : version ++ ',' :: (previousHash ++ ',' :: (stringifyTx tx ++ ',' :: natText height))
      = hashText b.version b.previousHash b.tx b.height) :
    version = natText b.version ∧ previousHash = b.previousHash ∧ tx = b.tx ∧ height = b.height := by
  have hshape : ∀ v p s d : Text, v ++ ',' :: (p ++ ',' :: (s ++ ',' :: d))
      = ((v ++ ',' :: p) ++ ',' :: s) ++ ',' :: d := by
    intro v p s d
    simp
  unfold hashText at h
  rw [hshape, hshape] at h
  obtain ⟨hbody, hheight⟩ := height_split h
  obtain ⟨hhead, hmembers⟩ := join_unique delimited_txValue clears_txValue
    (lettered_members hne htx) (lettered_members hbne hbtx) hbody
  obtain ⟨hversion, hprev⟩ := comma_split (not_mem_natText _) (not_mem_of_isKeyText hprevious) hhead
  exact ⟨hversion, hprev, TransactionStruct.list_eq_of_members htx hbtx hmembers, hheight⟩

/-! ## §2. The block the voters have signed. -/

/-- The hash is that of a block that matches `block.json`. -/
structure HashOf (crypto : Crypto) (hash : Text) (b : BlockStruct) : Prop where
  valid : b.valid = true
  hash_eq : b.hash = hash
  hashed : crypto.hash (hashText b.version b.previousHash b.tx b.height) = hash

/-- **Every staked peer signs only hashes of schema-valid blocks**, as far as it
signs hashes at all. -/
def HonestVoters (crypto : Crypto) (verifyOther : Option Json → Option Json → Text → Bool)
    (l : Ledger) : Prop :=
  ∀ publicKey sig text, 0 < l.getStake publicKey →
    verifySignature crypto verifyOther (some (.str publicKey)) sig (crypto.hash text) = true →
      ∃ b, HashOf crypto (crypto.hash text) b

/-- The votes of an accepted block are for a hash that somebody honest has signed. -/
theorem hashOf_of_votes (hl : Accounted l) (hhonest : HonestVoters crypto verifyOther l)
    {text : Text} {votes : Option Json} {vs : List Json}
    (h : VotesPass crypto verifyOther l (crypto.hash text) votes vs) :
    ∃ b, HashOf crypto (crypto.hash text) b := by
  obtain ⟨publicKey, hmem, hstake⟩ := hl.exists_staked h.quorum
  obtain ⟨vote, hvote, horigin⟩ := List.mem_filterMap.mp hmem
  obtain ⟨origin, ho, htext⟩ := Option.bind_eq_some_iff.mp horigin
  obtain rfl := Json.text_eq_some htext
  have hverified := ((sound_iff.mp h.sound).1 vote hvote).2
  rw [validateVote, ho] at hverified
  exact hhonest publicKey _ text hstake hverified

/-- What `BlockStruct.valid` says of its parts. -/
structure ValidParts (b : BlockStruct) : Prop where
  version : b.version = BLOCK_VERSION
  previousHash : isKeyText b.previousHash = true
  hash : isKeyText b.hash = true
  tx : ∀ t ∈ b.tx, t.valid = true
  txArray : arrayWithin TransactionStruct.same 1 16 b.tx = true
  height : 1 ≤ b.height
  votes : validVotes b.votes = true

theorem valid_iff {b : BlockStruct} : b.valid = true ↔ ValidParts b := by
  unfold BlockStruct.valid
  simp only [Bool.and_eq_true, decide_eq_true_eq, List.all_eq_true]
  constructor
  · rintro ⟨⟨⟨⟨⟨hversion, hprevious⟩, hhash⟩, htx, harray⟩, hheight⟩, hvotes⟩
    exact ⟨hversion, hprevious, hhash, htx, harray, hheight, hvotes⟩
  · intro h
    exact ⟨⟨⟨⟨⟨h.version, h.previousHash⟩, h.hash⟩, h.tx, h.txArray⟩, h.height⟩, h.votes⟩

theorem ne_nil_of_arrayWithin {α : Type} {same : α → α → Bool} {as : List α}
    (h : arrayWithin same 1 16 as = true) : as ≠ [] := by
  rintro rfl
  exact absurd h (by simp [arrayWithin])

/-- What acceptance fixes of a block, given the block its voters have signed. -/
structure Signed (crypto : Crypto) (verifyOther : Option Json → Option Json → Text → Bool)
    (c : Blockchain) (j : Json) (b : BlockStruct) (vs : List Json) : Prop where
  signed : HashOf crypto b.hash b
  version : Json.joinedText (j.member WireField.version.name) = some (natText BLOCK_VERSION)
  previousHash : j.member WireField.previousHash.name = some (.str b.previousHash)
  hash : j.member WireField.hash.name = some (.str b.hash)
  tx : j.member WireField.tx.name = some (.arr (b.tx.map TransactionStruct.toJson))
  height : j.member WireField.height.name = some (.int b.height)
  next : c.height + 1 = b.height
  latest : c.latestBlock.map BlockStruct.hash = some b.previousHash
  origins : (b.tx.map TransactionStruct.origin).Nodup
  txs : ∀ t ∈ b.tx, Divachain.validateTx crypto c.toLedger b.height t = true
  votes : VotesPass crypto verifyOther c.toLedger b.hash (j.member WireField.votes.name) vs

/-- Transactions that pass are the elements of an array. -/
theorem eq_arr_of_elements {tx : Json} {t : TransactionStruct} {ts : List TransactionStruct}
    (h : tx.elements = some ((t :: ts).map TransactionStruct.toJson)) :
    tx = .arr ((t :: ts).map TransactionStruct.toJson) := by
  cases tx with
  | arr js => exact congrArg Json.arr (Option.some.inj h)
  | str s =>
    have hfirst := Option.some.inj h
    cases s with
    | nil => exact nomatch hfirst
    | cons a s => exact nomatch (List.cons.inj hfirst).1
  | _ => exact nomatch h

/-- A value with a length that has been read as transactions is their array: an
empty one has no length, and a text is no transaction. -/
theorem array_of_hasLength {tx : Json} {ts : List TransactionStruct} (hlength : tx.hasLength = true)
    (h : tx.elements = some (ts.map TransactionStruct.toJson)) :
    ts ≠ [] ∧ tx = .arr (ts.map TransactionStruct.toJson) := by
  cases ts with
  | nil =>
    cases tx with
    | arr js =>
      obtain rfl : js = [] := Option.some.inj h
      exact absurd hlength (by decide)
    | str s =>
      obtain rfl : s = [] := List.map_eq_nil_iff.mp (Option.some.inj h)
      exact absurd hlength (by decide)
    | _ => exact nomatch h
  | cons t ts => exact ⟨List.cons_ne_nil t ts, eq_arr_of_elements h⟩

theorem eq_of_present {v : Option Json} {j : Json} (h : present v = some j) : v = some j := by
  unfold present at h
  split at h
  · exact nomatch h
  · exact nomatch h
  next j' => exact h

/-- A hash to follow that is not empty is the one of the latest block. -/
theorem latest_of_latestHash {p : Text} (h : latestHash c = p) (hne : p ≠ []) :
    c.latestBlock.map BlockStruct.hash = some p := by
  unfold latestHash at h
  cases hlast : c.latestBlock.map BlockStruct.hash with
  | none =>
    rw [hlast] at h
    exact absurd h.symm hne
  | some q =>
    rw [hlast] at h
    exact congrArg some h

/-- **The block the voters have signed** is the accepted one, but for its votes,
other members and the version. -/
theorem signed_of_accepts (hinj : crypto.HashInjective) (hl : Accounted c.toLedger)
    (hhonest : HonestVoters crypto verifyOther c.toLedger) {j : Json}
    (h : accepts crypto verifyOther c j = some true) : ∃ b vs, Signed crypto verifyOther c j b vs := by
  obtain ⟨hnext, tx, text, txs, vs, hpass⟩ := accepts_eq_true_iff.mp h
  obtain ⟨b, hb⟩ := hashOf_of_votes hl hhonest hpass.votes
  obtain ⟨ts, rfl, hnodup, htxs⟩ := sound_txs_iff.mp hpass.sound
  have hparts := valid_iff.mp hb.valid
  rw [isNext, Bool.and_eq_true] at hnext
  obtain ⟨hheight, hprevious⟩ := hnext
  obtain ⟨hne, rfl⟩ := array_of_hasLength hpass.hasLength hpass.elements
  obtain ⟨version, hversion, htext⟩ := Option.map_eq_some_iff.mp hpass.hashed
  -- one hash, so one text, and its parts can be told apart
  have hsame : version
      ++ ',' :: (latestHash c ++ ',' :: (stringifyTx ts ++ ',' :: natText (c.height + 1)))
      = hashText b.version b.previousHash b.tx b.height := by
    rw [← stringify_txs, htext]
    exact hinj hb.hashed.symm
  obtain ⟨hv, hp, htx, hh⟩ := joined_unique hne
    (fun t ht => TransactionStruct.valid_wellKeyed (validateTx_iff.mp (htxs t ht)).1)
    (ne_nil_of_arrayWithin hparts.txArray)
    (fun t ht => TransactionStruct.valid_wellKeyed (hparts.tx t ht)) hparts.previousHash hsame
  have hlatest : c.latestBlock.map BlockStruct.hash = some b.previousHash := by
    refine latest_of_latestHash hp fun hnil => ?_
    have hkey := hparts.previousHash
    rw [hnil] at hkey
    exact absurd hkey (by decide)
  have hmember : j.member WireField.previousHash.name = some (.str b.previousHash) := by
    obtain ⟨latest, hlast, hlasthash⟩ := Option.map_eq_some_iff.mp hlatest
    rw [hlast, Option.map_some, hlasthash] at hprevious
    exact eq_of_isText hprevious
  refine ⟨b, vs, ⟨hb.valid, rfl, hb.hashed.trans hb.hash_eq.symm⟩, ?_, hmember, ?_, ?_, ?_, hh,
    hlatest, ?_, ?_, ?_⟩
  · rw [hversion, hv, hparts.version]
  · rw [eq_of_isText hpass.hash, hb.hash_eq]
  · rw [eq_of_present hpass.tx_eq, htx]
  · rw [eq_of_sameInt hheight, ← hh]
    rfl
  · rw [← htx]
    exact hnodup
  · rw [← htx, ← hh]
    exact htxs
  · rw [hb.hash_eq]
    exact hpass.votes

/-! ## §3. The format of a gossiped block. -/

/-- **The block could have come as a candidate** and been confirmed: it matches
`block.json`, and the guard of `add` lets it through as what it has been read as. -/
def Gossipable (crypto : Crypto) (c : Blockchain) (j : Json) : Prop :=
  ∃ b, BlockStruct.ofJson j = some b ∧ b.valid = true ∧ c.accepts crypto b = true

/-- The properties that `block.json` asks for. -/
def blockNames : List Text :=
  [WireField.version, .previousHash, .hash, .tx, .height, .votes].map WireField.name

/-- **What no vote covers has the right format**: the block has no other members,
its version is a number, and its votes are no more than 16 of the right format. -/
structure SameFormat (j : Json) : Prop where
  members : ∃ l, j.members blockNames = some l
  version : j.member WireField.version.name = some (.int BLOCK_VERSION)
  votes : ∃ vs, j.member WireField.votes.name = some (.arr vs) ∧ vs.length ≤ 16
    ∧ ∀ v ∈ vs, ∃ w, VoteStruct.ofJson v = some w ∧ w.valid = true

/-- A vote that has been read. -/
theorem vote_members {v : Json} {w : VoteStruct} (h : VoteStruct.ofJson v = some w) :
    originOf v = some (.str w.origin) ∧ v.member WireField.sig.name = some (.str w.sig) := by
  obtain ⟨l, hl, h⟩ := Option.bind_eq_some_iff.mp h
  obtain ⟨origin, horigin, h⟩ := Option.bind_eq_some_iff.mp h
  obtain ⟨sig, hsig, h⟩ := Option.bind_eq_some_iff.mp h
  obtain rfl := Option.some.inj h
  obtain rfl := Json.members_eq_some hl
  exact ⟨lookup_of_text horigin, lookup_of_text hsig⟩

/-- Votes of the right format are read as a whole. -/
theorem mapM_votes : ∀ {vs : List Json},
    (∀ v ∈ vs, ∃ w, VoteStruct.ofJson v = some w ∧ w.valid = true) →
      ∃ ws : List VoteStruct, vs.mapM VoteStruct.ofJson = some ws ∧ ws.length = vs.length
        ∧ (∀ w ∈ ws, w.valid = true ∧ ∃ v ∈ vs, VoteStruct.ofJson v = some w)
        ∧ vs.map originOf = ws.map fun w => some (.str w.origin)
  | [], _ => ⟨[], rfl, rfl, (fun w hw => nomatch hw), rfl⟩
  | v :: vs, h => by
      obtain ⟨w, hw, hvalid⟩ := h v List.mem_cons_self
      obtain ⟨ws, hread, hlength, hall, horigins⟩ := mapM_votes fun u hu =>
        h u (List.mem_cons_of_mem v hu)
      refine ⟨w :: ws, ?_, ?_, ?_, ?_⟩
      · rw [List.mapM_cons, hw, hread]
        rfl
      · rw [List.length_cons, List.length_cons, hlength]
      · refine List.forall_mem_cons.mpr ⟨⟨hvalid, v, List.mem_cons_self, hw⟩, fun u hu => ?_⟩
        obtain ⟨hu', t, ht, hread'⟩ := hall u hu
        exact ⟨hu', t, List.mem_cons_of_mem v ht, hread'⟩
      · rw [List.map_cons, List.map_cons, horigins, (vote_members hw).1]

/-- Each item of an array that has been read. -/
theorem reads_of_mapM {α : Type} {item : Json → Option α} :
    ∀ {js : List Json} {as : List α}, js.mapM item = some as →
      as.length = js.length ∧ ∀ j ∈ js, ∃ a ∈ as, item j = some a
  | [], as, h => by
      obtain rfl := Option.some.inj h
      exact ⟨rfl, fun j hj => nomatch hj⟩
  | j :: js, as, h => by
      rw [List.mapM_cons] at h
      obtain ⟨a, ha, h⟩ := Option.bind_eq_some_iff.mp h
      obtain ⟨rest, hrest, h⟩ := Option.bind_eq_some_iff.mp h
      obtain rfl := Option.some.inj h
      obtain ⟨hlength, hall⟩ := reads_of_mapM hrest
      refine ⟨by rw [List.length_cons, List.length_cons, hlength], ?_⟩
      refine List.forall_mem_cons.mpr ⟨⟨a, List.mem_cons_self, ha⟩, fun k hk => ?_⟩
      obtain ⟨b, hb, hread⟩ := hall k hk
      exact ⟨b, List.mem_cons_of_mem a hb, hread⟩

theorem nodup_of_origins {vs : List Json} {ws : List VoteStruct}
    (h : vs.map originOf = ws.map fun w => some (.str w.origin))
    (hpairs : vs.Pairwise fun a b => Json.sameValue (originOf b) (originOf a) = false) :
    (ws.map VoteStruct.origin).Nodup := by
  have hmap : (vs.map originOf).Pairwise fun a b => Json.sameValue b a = false :=
    List.pairwise_map.mpr hpairs
  rw [h, List.pairwise_map] at hmap
  refine List.pairwise_map.mpr (hmap.imp ?_)
  intro a b hne heq
  rw [heq] at hne
  simp [Json.sameValue] at hne

theorem votersOf_of_origins {vs : List Json} {ws : List VoteStruct}
    (h : vs.map originOf = ws.map fun w => some (.str w.origin)) :
    votersOf vs = ws.map VoteStruct.origin := by
  have hfactor : votersOf vs = (vs.map originOf).filterMap fun o => o.bind Json.text := by
    rw [List.filterMap_map]
    rfl
  rw [hfactor, h, List.filterMap_map]
  exact List.filterMap_eq_map ▸ rfl

/-- A block of the right format is read. -/
theorem ofJson_of_format {j : Json} {b : BlockStruct} {vs : List Json} {ws : List VoteStruct}
    (hsigned : Signed crypto verifyOther c j b vs) (hformat : SameFormat j)
    (hread : vs.mapM VoteStruct.ofJson = some ws) :
    BlockStruct.ofJson j = some { b with votes := ws } := by
  obtain ⟨l, hl⟩ := hformat.members
  obtain rfl := Json.members_eq_some hl
  have hparts := valid_iff.mp hsigned.signed.valid
  have hversion : l.lookup WireField.version.name = some (.int BLOCK_VERSION) := hformat.version
  have hprevious : l.lookup WireField.previousHash.name = some (.str b.previousHash) :=
    hsigned.previousHash
  have hhash : l.lookup WireField.hash.name = some (.str b.hash) := hsigned.hash
  have htx : l.lookup WireField.tx.name = some (.arr (b.tx.map TransactionStruct.toJson)) :=
    hsigned.tx
  have hheight : l.lookup WireField.height.name = some (.int b.height) := hsigned.height
  have hvotes : l.lookup WireField.votes.name = some (.arr vs) := hsigned.votes.array
  have htxs : (b.tx.map TransactionStruct.toJson).mapM TransactionStruct.ofJson = some b.tx :=
    mapM_map_toJson fun t ht =>
      TransactionStruct.ofJson_toJson (TransactionStruct.valid_wellKeyed (hparts.tx t ht))
  unfold blockNames at hl
  unfold BlockStruct.ofJson
  simp only [hl, Option.bind_eq_bind, Option.bind_some, Json.field, hversion, hprevious, hhash, htx,
    hheight, hvotes, Json.array, htxs, hread]
  rw [hparts.version]
  rfl

/-- What has been read as a block that matches `block.json` has the format. -/
theorem sameFormat_of_valid {j : Json} {b : BlockStruct} (hread : BlockStruct.ofJson j = some b)
    (hvalid : b.valid = true) : SameFormat j := by
  have hparts := valid_iff.mp hvalid
  obtain ⟨l, hmembers, h⟩ := Option.bind_eq_some_iff.mp hread
  obtain ⟨version, hversion, h⟩ := Option.bind_eq_some_iff.mp h
  obtain ⟨previousHash, -, h⟩ := Option.bind_eq_some_iff.mp h
  obtain ⟨hash, -, h⟩ := Option.bind_eq_some_iff.mp h
  obtain ⟨tx, -, h⟩ := Option.bind_eq_some_iff.mp h
  obtain ⟨height, -, h⟩ := Option.bind_eq_some_iff.mp h
  obtain ⟨votes, hvotes, h⟩ := Option.bind_eq_some_iff.mp h
  obtain rfl := Option.some.inj h
  obtain rfl := Json.members_eq_some hmembers
  refine ⟨⟨l, hmembers⟩, ?_, ?_⟩
  · obtain ⟨v, hv, hnatural⟩ := Json.field_eq_some hversion
    have hseven : version = BLOCK_VERSION := hparts.version
    rw [← hseven, ← Json.natural_eq_some hnatural]
    exact hv
  · obtain ⟨vs, hvs, hall⟩ := lookup_of_array hvotes
    have harray := hparts.votes
    unfold validVotes arrayWithin at harray
    simp only [Bool.and_eq_true, decide_eq_true_eq, List.all_eq_true] at harray
    obtain ⟨hlength, hreads⟩ := reads_of_mapM hall
    refine ⟨vs, hvs, by omega, fun v hv => ?_⟩
    obtain ⟨w, hw, hvw⟩ := hreads v hv
    exact ⟨w, hvw, harray.1 w hw⟩

/-- Votes of different origins in the right number match `block.json`. -/
theorem validVotes_of_nodup {ws : List VoteStruct} (hvalid : ∀ w ∈ ws, w.valid = true)
    (hnodup : (ws.map VoteStruct.origin).Nodup) (hne : 1 ≤ ws.length) (hcount : ws.length ≤ 16) :
    validVotes ws = true := by
  have hdistinct : ws.Pairwise fun v w => decide (v = w) = false := by
    refine List.Pairwise.of_map VoteStruct.origin ?_ hnodup
    intro v w hne
    exact decide_eq_false fun heq => hne (congrArg VoteStruct.origin heq)
  unfold validVotes arrayWithin
  simp only [Bool.and_eq_true, decide_eq_true_eq, List.all_eq_true]
  exact ⟨hvalid, ⟨hne, hcount⟩, hdistinct⟩

/-- **A signed block in the format could have been gossiped.** -/
theorem gossipable_of_signed (hl : Accounted c.toLedger) {j : Json} {b : BlockStruct} {vs : List Json}
    (hsigned : Signed crypto verifyOther c j b vs) (hformat : SameFormat j) :
    Gossipable crypto c j := by
  obtain ⟨us, hus, hcount, hvalid⟩ := hformat.votes
  obtain rfl : us = vs := Json.arr.inj (Option.some.inj (hus.symm.trans hsigned.votes.array))
  obtain ⟨ws, hread, hlength, hws, horigins⟩ := mapM_votes hvalid
  have hparts := valid_iff.mp hsigned.signed.valid
  obtain ⟨hsound, hpairs⟩ := sound_iff.mp hsigned.votes.sound
  have hnodup := nodup_of_origins horigins hpairs
  have hvoters := votersOf_of_origins horigins
  have hquorum := hsigned.votes.quorum
  rw [hvoters] at hquorum
  have hne : 1 ≤ ws.length := by
    obtain ⟨publicKey, hmem, -⟩ := hl.exists_staked hquorum
    have hpos := List.length_pos_of_mem hmem
    rwa [List.length_map] at hpos
  refine ⟨{ b with votes := ws }, ofJson_of_format hsigned hformat hread, ?_, ?_⟩
  · have hatMost : ws.length ≤ 16 := by omega
    exact valid_iff.mpr ⟨hparts.version, hparts.previousHash, hparts.hash, hparts.tx,
      hparts.txArray, hparts.height,
      validVotes_of_nodup (fun w hw => (hws w hw).1) hnodup hne hatMost⟩
  · refine (Blockchain.accepts_iff crypto).mpr ⟨hsigned.next, hsigned.latest, ?_, ?_⟩
    · exact ⟨ne_nil_of_arrayWithin hparts.txArray, hsigned.signed.hashed, hsigned.origins,
        hsigned.txs⟩
    · refine ⟨hnodup, fun w hw => ?_, hquorum⟩
      -- each vote has been checked as the value it has been read from
      obtain ⟨-, v, hv, hvw⟩ := hws w hw
      have hchecked := (hsound v hv).2
      obtain ⟨horigin, hsig⟩ := vote_members hvw
      rw [validateVote, horigin, hsig] at hchecked
      exact hchecked

/-- **A synced block has the format of a gossiped one if and only if** the parts
that no vote covers have. -/
theorem synced_format_iff (hinj : crypto.HashInjective) {bs : List BlockStruct}
    (hledger : c.toLedger = Ledger.fresh.applyBlocks bs)
    (hhonest : HonestVoters crypto verifyOther c.toLedger) {j : Json}
    (haccepts : accepts crypto verifyOther c j = some true) :
    Gossipable crypto c j ↔ SameFormat j := by
  have hl : Accounted c.toLedger := by
    rw [hledger]
    exact Accounted.fresh.applyBlocks bs
  constructor
  · rintro ⟨b, hread, hvalid, -⟩
    exact sameFormat_of_valid hread hvalid
  · intro hformat
    obtain ⟨b, vs, hsigned⟩ := signed_of_accepts hinj hl hhonest haccepts
    exact gossipable_of_signed hl hsigned hformat

/-! ## §4. A member that nobody has signed. -/

open Blockchain (sampleBlock sampleTx sampleGenesis sampleStart)

def strictHashes : List Text :=
  [genesisText 3, hashText BLOCK_VERSION (label 43 0) (sampleBlock []).tx 2]

def strictSigs : List (Text × Text) :=
  [(keyOf 0, signedText 2 sampleTx.commands), (keyOf 0, label 43 1), (keyOf 1, label 43 1)]

/-- Signatures verify for what is in the table and for nothing else. -/
def strictCrypto : Crypto :=
  { tableCrypto strictHashes strictSigs with
    verifySignature := fun pk sig d => decide ((pk, d) ∈ strictSigs)
      && (tableCrypto strictHashes strictSigs).verifySignature pk sig d }

/-- A value that is not a text is no signature. -/
def noOther (_ _ : Option Json) (_ : Text) : Bool := false

theorem strictCrypto_hashInjective : strictCrypto.HashInjective :=
  tableCrypto_hashInjective strictHashes strictSigs

/-- No hash is the signed text of the transaction. -/
theorem hash_ne_signedText (text : Text) :
    strictCrypto.hash text ≠ signedText 2 sampleTx.commands := by
  intro h
  change tableText 43 id strictHashes text = _ at h
  rcases tableText_cases 43 id strictHashes text with ⟨i, hi, hlabel⟩ | hmark
  · have hlength := congrArg List.length (hlabel.symm.trans h)
    have hlt : i < 2 := hi
    have hshort : ∀ k < 2, (label 43 k).length ≠ (signedText 2 sampleTx.commands).length := by
      decide +kernel
    exact hshort i hlt hlength
  · have hstart : (signedText 2 sampleTx.commands).head? = some '2' := by decide +kernel
    rw [← hmark.symm.trans h] at hstart
    exact absurd hstart (by simp)

theorem strictCrypto_honest (l : Ledger) : HonestVoters strictCrypto noOther l := by
  intro publicKey sig text _ h
  have hlisted : (publicKey, strictCrypto.hash text) ∈ strictSigs := by
    cases sig with
    | none => exact absurd h Bool.false_ne_true
    | some j =>
      cases j with
      | str s => exact of_decide_eq_true ((Bool.and_eq_true _ _).mp h).1
      | _ => exact absurd h Bool.false_ne_true
  have hlabel : strictCrypto.hash text = label 43 1 := by
    simp only [strictSigs, List.mem_cons, List.not_mem_nil, or_false, Prod.mk.injEq] at hlisted
    rcases hlisted with ⟨-, h'⟩ | ⟨-, h'⟩ | ⟨-, h'⟩
    · exact absurd h' (hash_ne_signedText text)
    · exact h'
    · exact h'
  rw [hlabel]
  exact ⟨sampleBlock [0, 1], by decide +kernel, rfl, by decide +kernel⟩

theorem ledger_sampleStart :
    (sampleStart 0).toLedger = Ledger.fresh.applyBlocks [sampleGenesis] := by decide +kernel

/-- A synced block in the format of a gossiped one. -/
theorem synced_format_of_sample :
    Gossipable strictCrypto (sampleStart 0) (sampleBlock [0, 1]).toJson :=
  (synced_format_iff strictCrypto_hashInjective ledger_sampleStart
    (strictCrypto_honest _) (by decide +kernel)).mpr
    { members := ⟨_, rfl⟩
      version := rfl
      votes := ⟨_, rfl, by decide, by decide +kernel⟩ }

/-- The object with one more member. -/
def withMember (name : Text) (v : Json) : Json → Json
  | .obj l => .obj (l ++ [(name, v)])
  | j => j

/-- **A synced block with a member of its own**: it is accepted and stored, and no
schema would have let it pass. -/
theorem synced_with_extra_member :
    ¬ ∀ (crypto : Crypto) (verifyOther : Option Json → Option Json → Text → Bool) (c : Blockchain)
      (bs : List BlockStruct) (j : Json), crypto.HashInjective →
        c.toLedger = Ledger.fresh.applyBlocks bs → HonestVoters crypto verifyOther c.toLedger →
          accepts crypto verifyOther c j = some true → Gossipable crypto c j := by
  intro hclaim
  obtain ⟨b, hread, -, -⟩ := hclaim strictCrypto noOther (sampleStart 0) [sampleGenesis]
    (withMember ['x'] (.int 1) (sampleBlock [0, 1]).toJson) strictCrypto_hashInjective
    ledger_sampleStart (strictCrypto_honest _) (by decide +kernel)
  have hnone : BlockStruct.ofJson (withMember ['x'] (.int 1) (sampleBlock [0, 1]).toJson) = none := by
    decide +kernel
  exact nomatch hnone.symm.trans hread

end Untyped

end Divachain
