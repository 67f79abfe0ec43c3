/-
  Divachain.Net.Wire — messages as JSON, and as the bytes of a datagram.

  A datagram is `version;message;signature`: the message is deflated JSON in
  base64url, and the signature is over that text.  `unpack` gives the parsed
  value if its claimed origin has signed it, and the empty object otherwise;
  nobody has looked at its shape then.  `ofJson` reads a value of the shape the
  schemas ask for.

  Decoding base64url is a library's work and inflating zlib's; together with
  the JSON parser they are the fields of `Codec`, about which nothing is assumed.
-/
import Divachain.Lib.Json
import Divachain.Net.Message

namespace Divachain

open DataKit

abbrev Bytes := List UInt8

/-! ## §1. Property names. -/

/-- The property names of messages and blocks. -/
inductive WireField where
  | seq | origin | dest | data | type | height | tx | block | hash | sig | votes | status
  | version | previousHash
  deriving DecidableEq, Repr

def WireField.name : WireField → Text
  | .seq => ['s', 'e', 'q']
  | .origin => ['o', 'r', 'i', 'g', 'i', 'n']
  | .dest => ['d', 'e', 's', 't']
  | .data => ['d', 'a', 't', 'a']
  | .type => ['t', 'y', 'p', 'e']
  | .height => ['h', 'e', 'i', 'g', 'h', 't']
  | .tx => ['t', 'x']
  | .block => ['b', 'l', 'o', 'c', 'k']
  | .hash => ['h', 'a', 's', 'h']
  | .sig => ['s', 'i', 'g']
  | .votes => ['v', 'o', 't', 'e', 's']
  | .status => ['s', 't', 'a', 't', 'u', 's']
  | .version => ['v', 'e', 'r', 's', 'i', 'o', 'n']
  | .previousHash => ['p', 'r', 'e', 'v', 'i', 'o', 'u', 's', 'H', 'a', 's', 'h']

/-- The field that has this name. -/
def Field.ofName (t : Text) : Option Field :=
  [Field.seq, .command, .http, .udp, .publicKey, .ident, .stake, .ns, .d, .h].find?
    fun f => decide (f.name = t)

def TxField.ofName (t : Text) : Option TxField :=
  TransactionStruct.fields.find? fun f => decide (f.name = t)

/-! ## §2. Reading a value of the right shape. -/

/-- The body of a command, as `command` names it. -/
def CommandBody.ofJson (l : List (Text × Json)) (command : Text) : Option CommandBody :=
  let text (f : Field) := Json.field l f.name Json.text
  let integer (f : Field) := Json.field l f.name Json.integer
  if command = ['a', 'd', 'd', 'P', 'e', 'e', 'r'] then do
    return .addPeer (← text .http) (← text .udp) (← text .publicKey)
  else if command = ['r', 'e', 'm', 'o', 'v', 'e', 'P', 'e', 'e', 'r'] then do
    return .removePeer (← text .publicKey)
  else if command = ['m', 'o', 'd', 'i', 'f', 'y', 'S', 't', 'a', 'k', 'e'] then do
    return .modifyStake (← text .publicKey) (← text .ident) (← integer .stake)
  else if command = ['d', 'a', 't', 'a'] then do
    return .data (← text .ns) (← text .d)
  else if command = ['d', 'e', 'c', 'i', 's', 'i', 'o', 'n'] then do
    return .decision (← text .ns) (← integer .h) (← text .d)
  else none

/-- A command; `Command.valid` says which properties it must have. -/
def Command.ofJson : Json → Option Command
  | .obj l => do
      let keys ← l.mapM fun e => Field.ofName e.1
      let seq ← Json.field l Field.seq.name Json.integer
      let command ← Json.field l Field.command.name Json.text
      let body ← CommandBody.ofJson l command
      return { seq := seq, body := body, keys := keys }
  | _ => none

def TransactionStruct.ofJson : Json → Option TransactionStruct
  | .obj l => do
      let keys ← l.mapM fun e => TxField.ofName e.1
      let ident ← Json.field l TxField.ident.name Json.text
      let origin ← Json.field l TxField.origin.name Json.text
      let commands ← Json.field l TxField.commands.name (Json.array Command.ofJson)
      let sig ← Json.field l TxField.sig.name Json.text
      return { ident := ident, origin := origin, commands := commands, sig := sig, keys := keys }
  | _ => none

def VoteStruct.ofJson (j : Json) : Option VoteStruct := do
  let l ← j.members ([WireField.origin, .sig].map WireField.name)
  let origin ← Json.field l WireField.origin.name Json.text
  let sig ← Json.field l WireField.sig.name Json.text
  return { origin := origin, sig := sig }

def BlockStruct.ofJson (j : Json) : Option BlockStruct := do
  let l ← j.members
    ([WireField.version, .previousHash, .hash, .tx, .height, .votes].map WireField.name)
  let version ← Json.field l WireField.version.name Json.natural
  let previousHash ← Json.field l WireField.previousHash.name Json.text
  let hash ← Json.field l WireField.hash.name Json.text
  let tx ← Json.field l WireField.tx.name (Json.array TransactionStruct.ofJson)
  let height ← Json.field l WireField.height.name Json.natural
  let votes ← Json.field l WireField.votes.name (Json.array VoteStruct.ofJson)
  return { version := version, previousHash := previousHash, hash := hash, tx := tx,
           height := height, votes := votes }

def TYPE_ADD_TX : Nat := 1

def TYPE_PROPOSE_BLOCK : Nat := 2

def TYPE_SIGN_BLOCK : Nat := 3

def TYPE_CONFIRM_BLOCK : Nat := 4

def TYPE_STATUS : Nat := 5

/-- `m.type()` of a message of the right shape. -/
def MessageData.type : MessageData → Nat
  | .addTx .. => TYPE_ADD_TX
  | .proposeBlock .. => TYPE_PROPOSE_BLOCK
  | .signBlock .. => TYPE_SIGN_BLOCK
  | .confirmBlock .. => TYPE_CONFIRM_BLOCK
  | .status .. => TYPE_STATUS

/-- `data`.  Each schema fixes its `type`, so at most one of them matches. -/
def MessageData.ofJson : Json → Option MessageData
  | .obj l => do
      let type ← Json.field l WireField.type.name Json.natural
      if type = TYPE_ADD_TX then
        let l ← (Json.obj l).members ([WireField.type, .height, .tx].map WireField.name)
        let height ← Json.field l WireField.height.name Json.natural
        let tx ← Json.field l WireField.tx.name TransactionStruct.ofJson
        return .addTx height tx
      else if type = TYPE_PROPOSE_BLOCK then
        let l ← (Json.obj l).members ([WireField.type, .block].map WireField.name)
        let block ← Json.field l WireField.block.name BlockStruct.ofJson
        return .proposeBlock block
      else if type = TYPE_SIGN_BLOCK then
        let l ← (Json.obj l).members ([WireField.type, .hash, .sig].map WireField.name)
        let hash ← Json.field l WireField.hash.name Json.text
        let sig ← Json.field l WireField.sig.name Json.text
        return .signBlock hash sig
      else if type = TYPE_CONFIRM_BLOCK then
        let l ← (Json.obj l).members ([WireField.type, .hash, .votes].map WireField.name)
        let hash ← Json.field l WireField.hash.name Json.text
        let votes ← Json.field l WireField.votes.name (Json.array VoteStruct.ofJson)
        return .confirmBlock hash votes
      else if type = TYPE_STATUS then
        let l ← (Json.obj l).members ([WireField.type, .status, .height].map WireField.name)
        let kind ← Json.field l WireField.status.name Json.natural
        let height ← Json.field l WireField.height.name Json.natural
        return .status kind height
      else none
  | _ => none

def Message.ofJson (j : Json) : Option Message := do
  let l ← j.members ([WireField.seq, .origin, .dest, .data].map WireField.name)
  let seq ← Json.field l WireField.seq.name Json.natural
  let origin ← Json.field l WireField.origin.name Json.text
  let dest ← Json.field l WireField.dest.name Json.text
  let data ← Json.field l WireField.data.name MessageData.ofJson
  return { seq := seq, origin := origin, dest := dest, data := data }

/-! ## §3. The JSON a node writes. -/

def leafJson : Text ⊕ Int → Json := Sum.elim .str .int

def Command.toJson (c : Command) : Json := .obj (c.members.map fun e => (e.1, leafJson e.2))

def TransactionStruct.json (t : TransactionStruct) : TxField → Json
  | .ident => .str t.ident
  | .origin => .str t.origin
  | .commands => .arr (t.commands.map Command.toJson)
  | .sig => .str t.sig

def TransactionStruct.toJson (t : TransactionStruct) : Json :=
  .obj (t.keys.map fun k => (k.name, t.json k))

def VoteStruct.toJson (v : VoteStruct) : Json :=
  .obj [(WireField.origin.name, .str v.origin), (WireField.sig.name, .str v.sig)]

def BlockStruct.toJson (b : BlockStruct) : Json :=
  .obj [(WireField.version.name, .int b.version),
    (WireField.previousHash.name, .str b.previousHash), (WireField.hash.name, .str b.hash),
    (WireField.tx.name, .arr (b.tx.map TransactionStruct.toJson)),
    (WireField.height.name, .int b.height),
    (WireField.votes.name, .arr (b.votes.map VoteStruct.toJson))]

def MessageData.toJson (d : MessageData) : Json :=
  let rest : List (WireField × Json) :=
    match d with
    | .addTx height tx => [(.height, .int height), (.tx, tx.toJson)]
    | .proposeBlock block => [(.block, block.toJson)]
    | .signBlock hash sig => [(.hash, .str hash), (.sig, .str sig)]
    | .confirmBlock hash votes => [(.hash, .str hash), (.votes, .arr (votes.map VoteStruct.toJson))]
    | .status kind height => [(.status, .int kind), (.height, .int height)]
  .obj (((WireField.type, Json.int d.type) :: rest).map fun e => (e.1.name, e.2))

def Message.toJson (m : Message) : Json :=
  .obj [(WireField.seq.name, .int m.seq), (WireField.origin.name, .str m.origin),
    (WireField.dest.name, .str m.dest), (WireField.data.name, m.data.toJson)]

/-! ## §4. What the code reads of a value before and after it has been checked. -/

/-- What is decoded has this type. -/
def MessageData.Yields (t : Nat) (o : Option MessageData) : Prop := ∀ d, o = some d → t = d.type

theorem MessageData.Yields.bind {α : Type} {t : Nat} {o : Option α} {f : α → Option MessageData}
    (h : ∀ a, Yields t (f a)) : Yields t (o >>= f) := by
  intro d hd
  obtain ⟨a, -, ha⟩ := Option.bind_eq_some_iff.mp hd
  exact h a d ha

theorem MessageData.Yields.pure {t : Nat} {d : MessageData} (h : t = d.type) :
    Yields t (pure d) := by
  intro d' hd
  rw [h, Option.some.inj hd]

theorem MessageData.type_of_yields {t : Nat} {o : Option MessageData} {d : MessageData}
    (h : o = some d) (hyields : Yields t o) : t = d.type := hyields d h

/-- `m.type()` of a value of the right shape. -/
theorem MessageData.read_type {j : Json} {d : MessageData} (h : MessageData.ofJson j = some d) :
    Json.read WireField.type.name (some j) = some (some (.int d.type)) := by
  cases j with
  | obj l =>
      unfold MessageData.ofJson at h
      obtain ⟨t, ht, h⟩ := Option.bind_eq_some_iff.mp h
      obtain ⟨jt, hlookup, hnatural⟩ := Json.field_eq_some ht
      -- every branch decodes two or three fields and keeps the type it was chosen for
      have hd : t = d.type := by
        split at h
        next heq =>
          exact heq.trans (type_of_yields h (.bind fun _ => .bind fun _ => .bind fun _ => .pure rfl))
        split at h
        next heq => exact heq.trans (type_of_yields h (.bind fun _ => .bind fun _ => .pure rfl))
        split at h
        next heq =>
          exact heq.trans (type_of_yields h (.bind fun _ => .bind fun _ => .bind fun _ => .pure rfl))
        split at h
        next heq =>
          exact heq.trans (type_of_yields h (.bind fun _ => .bind fun _ => .bind fun _ => .pure rfl))
        split at h
        next heq =>
          exact heq.trans (type_of_yields h (.bind fun _ => .bind fun _ => .bind fun _ => .pure rfl))
        next => exact nomatch h
      rw [Json.read_obj, hlookup, Json.natural_eq_some hnatural, hd]
  | _ => exact nomatch h

/-- What the code reads of a value of the right shape. -/
structure Message.ReadFrom (j : Json) (m : Message) : Prop where
  seq : Json.read WireField.seq.name (some j) = some (some (.int m.seq))
  origin : Json.read WireField.origin.name (some j) = some (some (.str m.origin))
  dest : Json.read WireField.dest.name (some j) = some (some (.str m.dest))
  data : ∃ d, Json.read WireField.data.name (some j) = some (some d)
    ∧ MessageData.ofJson d = some m.data

theorem Message.readFrom {j : Json} {m : Message} (h : Message.ofJson j = some m) :
    Message.ReadFrom j m := by
  unfold Message.ofJson at h
  obtain ⟨l, hl, h⟩ := Option.bind_eq_some_iff.mp h
  obtain ⟨seq, hseq, h⟩ := Option.bind_eq_some_iff.mp h
  obtain ⟨origin, horigin, h⟩ := Option.bind_eq_some_iff.mp h
  obtain ⟨dest, hdest, h⟩ := Option.bind_eq_some_iff.mp h
  obtain ⟨data, hdata, h⟩ := Option.bind_eq_some_iff.mp h
  obtain rfl := Option.some.inj h
  obtain rfl := Json.members_eq_some hl
  obtain ⟨_, hseqAt, hseq⟩ := Json.field_eq_some hseq
  obtain ⟨_, horiginAt, horigin⟩ := Json.field_eq_some horigin
  obtain ⟨_, hdestAt, hdest⟩ := Json.field_eq_some hdest
  obtain ⟨d, hdataAt, hdata⟩ := Json.field_eq_some hdata
  refine ⟨?_, ?_, ?_, d, ?_, hdata⟩
  · rw [Json.read_obj, hseqAt, Json.natural_eq_some hseq]
  · rw [Json.read_obj, horiginAt, Json.text_eq_some horigin]
  · rw [Json.read_obj, hdestAt, Json.text_eq_some hdest]
  · rw [Json.read_obj, hdataAt]

/-! ## §5. What a node writes has the right shape. -/

theorem Field.ofName_name (f : Field) : Field.ofName f.name = some f := by
  cases f <;> decide

theorem TxField.ofName_name (f : TxField) : TxField.ofName f.name = some f := by
  cases f <;> decide

theorem lookup_map_snd {α β : Type} (f : α → β) (name : Text) :
    ∀ l : List (Text × α), (l.map fun e => (e.1, f e.2)).lookup name = (l.lookup name).map f
  | [] => rfl
  | e :: l => by
      rw [List.map_cons, List.lookup_cons, List.lookup_cons, lookup_map_snd f name l]
      split <;> rfl

/-- Reading a property of an object that was written key by key. -/
theorem lookup_filterMap_name {κ α : Type} {name : κ → Text} (hname : Function.Injective name)
    (value : κ → Option α) (k : κ) :
    ∀ {keys : List κ}, k ∈ keys →
      (keys.filterMap fun k => (value k).map fun v => (name k, v)).lookup (name k) = value k
  | [], h => nomatch h
  | k' :: keys, h => by
      by_cases heq : k = k'
      · subst heq
        cases hv : value k with
        | some v =>
            rw [List.filterMap_cons_some (b := (name k, v)) (by rw [hv]; rfl), List.lookup_cons,
              beq_self_eq_true]
        | none =>
            have hnone : ∀ l : List κ,
                (l.filterMap fun k => (value k).map fun v => (name k, v)).lookup (name k) = none := by
              intro l
              rw [List.lookup_eq_none_iff]
              intro e he
              obtain ⟨j, -, hj⟩ := List.mem_filterMap.mp he
              obtain ⟨v, hv', rfl⟩ := Option.map_eq_some_iff.mp hj
              rw [bne_iff_ne]
              intro hsame
              rw [hname hsame] at hv
              exact nomatch hv.symm.trans hv'
            exact hnone _
      · have hrest := lookup_filterMap_name hname value k (List.mem_of_ne_of_mem heq h)
        cases hv : value k' with
        | some v =>
            rw [List.filterMap_cons_some (b := (name k', v)) (by rw [hv]; rfl), List.lookup_cons,
              beq_eq_false_iff_ne.mpr fun hsame => heq (hname hsame)]
            exact hrest
        | none =>
            rw [List.filterMap_cons_none (by rw [hv]; rfl)]
            exact hrest

/-- A command has a value for each of its required properties. -/
theorem Command.value_isSome (c : Command) : ∀ f ∈ c.body.fields, (c.value f).isSome = true := by
  obtain ⟨seq, body, keys⟩ := c
  cases body <;> simp [CommandBody.fields, value]

/-- **A well-keyed command is read back as it was written.** -/
theorem Command.ofJson_toJson {c : Command} (h : c.WellKeyed) : Command.ofJson c.toJson = some c := by
  have hlookup : ∀ f ∈ c.keys, (c.members.map fun e => (e.1, leafJson e.2)).lookup f.name
      = (c.value f).map leafJson := by
    intro f hf
    rw [lookup_map_snd, members, lookup_filterMap_name Field.name_injective c.value f hf]
  have hkeys : ∀ keys : List Field, (∀ f ∈ keys, (c.value f).isSome = true) →
      ((keys.filterMap fun k => (c.value k).map fun v => (k.name, v)).map
        fun e => (e.1, leafJson e.2)).mapM (fun e => Field.ofName e.1) = some keys := by
    intro keys hsome
    induction keys with
    | nil => rfl
    | cons f keys ih =>
        obtain ⟨v, hv⟩ := Option.isSome_iff_exists.mp (hsome f List.mem_cons_self)
        rw [List.filterMap_cons_some (b := (f.name, v)) (by rw [hv]; rfl), List.map_cons,
          List.mapM_cons, Field.ofName_name, ih fun g hg => hsome g (List.mem_cons_of_mem f hg)]
        rfl
  have hmem : ∀ f ∈ c.body.fields, f ∈ c.keys := fun f hf => h.mem_iff.mpr hf
  have hsome : ∀ f ∈ c.keys, (c.value f).isSome = true := fun f hf =>
    c.value_isSome f (h.mem_iff.mp hf)
  have htext : ∀ f ∈ c.body.fields, ∀ t, c.value f = some (.inl t) →
      Json.field (c.members.map fun e => (e.1, leafJson e.2)) f.name Json.text = some t := by
    intro f hf t ht
    rw [Json.field, hlookup f (hmem f hf), ht]
    rfl
  have hinteger : ∀ f ∈ c.body.fields, ∀ n, c.value f = some (.inr n) →
      Json.field (c.members.map fun e => (e.1, leafJson e.2)) f.name Json.integer = some n := by
    intro f hf n hn
    rw [Json.field, hlookup f (hmem f hf), hn]
    rfl
  have hbody : CommandBody.ofJson (c.members.map fun e => (e.1, leafJson e.2)) c.body.name
      = some c.body := by
    clear hkeys hsome
    obtain ⟨seq, body, keys⟩ := c
    cases body with
    | addPeer http udp publicKey =>
        have hhttp := htext .http (by simp [CommandBody.fields]) http rfl
        have hudp := htext .udp (by simp [CommandBody.fields]) udp rfl
        have hkey := htext .publicKey (by simp [CommandBody.fields]) publicKey rfl
        simp [CommandBody.ofJson, CommandBody.name, hhttp, hudp, hkey]
    | removePeer publicKey =>
        have hkey := htext .publicKey (by simp [CommandBody.fields]) publicKey rfl
        simp [CommandBody.ofJson, CommandBody.name, hkey]
    | modifyStake publicKey ident stake =>
        have hkey := htext .publicKey (by simp [CommandBody.fields]) publicKey rfl
        have hident := htext .ident (by simp [CommandBody.fields]) ident rfl
        have hstake := hinteger .stake (by simp [CommandBody.fields]) stake rfl
        simp [CommandBody.ofJson, CommandBody.name, hkey, hident, hstake]
    | data ns d =>
        have hns := htext .ns (by simp [CommandBody.fields]) ns rfl
        have hd := htext .d (by simp [CommandBody.fields]) d rfl
        simp [CommandBody.ofJson, CommandBody.name, hns, hd]
    | decision ns height d =>
        have hns := htext .ns (by simp [CommandBody.fields]) ns rfl
        have hh := hinteger .h (by simp [CommandBody.fields]) height rfl
        have hd := htext .d (by simp [CommandBody.fields]) d rfl
        simp [CommandBody.ofJson, CommandBody.name, hns, hh, hd]
  have hseq : Field.seq ∈ c.body.fields := by
    cases c.body <;> simp [CommandBody.fields]
  have hcommand : Field.command ∈ c.body.fields := by
    cases c.body <;> simp [CommandBody.fields]
  show (List.mapM _ _ >>= fun _ => _) = _
  rw [show (c.members.map fun e => (e.1, leafJson e.2)).mapM (fun e => Field.ofName e.1)
    = some c.keys from hkeys c.keys hsome]
  rw [Option.bind_eq_bind, Option.bind_some, hinteger .seq hseq c.seq rfl,
    Option.bind_eq_bind, Option.bind_some, htext .command hcommand c.body.name rfl,
    Option.bind_eq_bind, Option.bind_some, hbody]
  rfl

theorem mapM_map_toJson {α : Type} {ofJson : Json → Option α} {toJson : α → Json} :
    ∀ {l : List α}, (∀ a ∈ l, ofJson (toJson a) = some a) → (l.map toJson).mapM ofJson = some l
  | [], _ => rfl
  | a :: l, h => by
      rw [List.map_cons, List.mapM_cons, h a List.mem_cons_self,
        mapM_map_toJson fun b hb => h b (List.mem_cons_of_mem a hb)]
      rfl

theorem TransactionStruct.ofJson_toJson {t : TransactionStruct} (h : t.WellKeyed) :
    TransactionStruct.ofJson t.toJson = some t := by
  have hlookup : ∀ f : TxField, (t.keys.map fun k => (k.name, t.json k)).lookup f.name
      = some (t.json f) := by
    intro f
    have hf : f ∈ t.keys := h.1.mem_iff.mpr (by cases f <;> decide)
    have hall := lookup_filterMap_name TxField.name_injective (fun k => some (t.json k)) f hf
    change (t.keys.filterMap (some ∘ fun k => (k.name, t.json k))).lookup f.name = _ at hall
    rw [List.filterMap_eq_map] at hall
    exact hall
  have hkeys : ∀ keys : List TxField, (keys.map fun k => (k.name, t.json k)).mapM
      (fun e => TxField.ofName e.1) = some keys := by
    intro keys
    induction keys with
    | nil => rfl
    | cons f keys ih =>
        rw [List.map_cons, List.mapM_cons, TxField.ofName_name, ih]
        rfl
  have hcommands : Json.array Command.ofJson (t.json .commands) = some t.commands :=
    mapM_map_toJson fun c hc => Command.ofJson_toJson (h.2 c hc)
  show (List.mapM _ _ >>= fun _ => _) = _
  rw [show (t.keys.map fun k => (k.name, t.json k)).mapM (fun e => TxField.ofName e.1)
    = some t.keys from hkeys t.keys]
  simp only [Option.bind_eq_bind, Option.bind_some, Json.field, hlookup, hcommands]
  rfl

theorem VoteStruct.ofJson_toJson (v : VoteStruct) : VoteStruct.ofJson v.toJson = some v := rfl

theorem array_votes (votes : List VoteStruct) :
    Json.array VoteStruct.ofJson (.arr (votes.map VoteStruct.toJson)) = some votes :=
  mapM_map_toJson fun v _ => v.ofJson_toJson

theorem BlockStruct.ofJson_toJson {b : BlockStruct} (h : ∀ t ∈ b.tx, t.WellKeyed) :
    BlockStruct.ofJson b.toJson = some b := by
  have htx : Json.array TransactionStruct.ofJson (.arr (b.tx.map TransactionStruct.toJson))
      = some b.tx := mapM_map_toJson fun t ht => TransactionStruct.ofJson_toJson (h t ht)
  show (do
    let tx ← Json.array TransactionStruct.ofJson (.arr (b.tx.map TransactionStruct.toJson))
    let votes ← Json.array VoteStruct.ofJson (.arr (b.votes.map VoteStruct.toJson))
    return { b with tx := tx, votes := votes } : Option BlockStruct) = some b
  rw [htx, array_votes]
  rfl

/-- The transactions a message carries have exactly their required properties. -/
def MessageData.WellKeyed : MessageData → Prop
  | .addTx _ tx => tx.WellKeyed
  | .proposeBlock block => ∀ t ∈ block.tx, t.WellKeyed
  | _ => True

/-- **A message is read back as it was written.** -/
theorem Message.ofJson_toJson {m : Message} (h : m.data.WellKeyed) :
    Message.ofJson m.toJson = some m := by
  have hdata : MessageData.ofJson m.data.toJson = some m.data := by
    cases hd : m.data with
    | addTx height tx =>
        rw [hd] at h
        show (TransactionStruct.ofJson tx.toJson).bind _ = _
        rw [TransactionStruct.ofJson_toJson h]
        rfl
    | proposeBlock block =>
        rw [hd] at h
        show (BlockStruct.ofJson block.toJson).bind _ = _
        rw [BlockStruct.ofJson_toJson h]
        rfl
    | signBlock hash sig => rfl
    | confirmBlock hash votes =>
        show (Json.array VoteStruct.ofJson (.arr (votes.map VoteStruct.toJson))).bind _ = _
        rw [array_votes]
        rfl
    | status kind height => rfl
  show (MessageData.ofJson m.data.toJson).bind _ = _
  rw [hdata]
  rfl

/-! ## §6. Datagrams. -/

/-- What is not part of the repository; `none` where it throws.  `verifyOther`
is a signature check with a claimed origin that is not even a string. -/
structure Codec where
  /-- `zlib.inflateRawSync(base64url.parse(message))`. -/
  inflate : Text → Option Bytes
  /-- `JSON.parse`. -/
  jsonParse : Text → Option Json
  verifyOther : Json → Text → Text → Bool

def VERSION_4 : Nat := 4

/-- The white space that `trim` takes off. -/
def isBlank (c : Char) : Bool :=
  let n := c.toNat
  decide (9 ≤ n ∧ n ≤ 13) || decide (0x2000 ≤ n ∧ n ≤ 0x200A)
    || [0x20, 0xA0, 0x1680, 0x2028, 0x2029, 0x202F, 0x205F, 0x3000, 0xFEFF].contains n

def trim (t : Text) : Text := ((t.dropWhile isBlank).reverse.dropWhile isBlank).reverse

/-- `^([0-9]+);([^;]+);([A-Za-z0-9_-]{86})$`. -/
def matchDatagram (t : Text) : Option (Text × Text × Text) :=
  match t.splitOn ';' with
  | [version, message, sig] =>
      if version ≠ [] ∧ version.all Char.isDigit = true ∧ message ≠ [] ∧ isSigText sig = true then
        some (version, message, sig)
      else none
  | _ => none

/-- `Number(t)` of a run of digits. -/
def numberOf (t : Text) : Nat := Nat.ofDigitChars 10 t 0

section

variable (crypto : Crypto) (codec : Codec)

/-- `Util.verifySignature`, for whatever stands in the place of the origin. -/
def verifyOrigin (origin : Json) (sig data : Text) : Bool :=
  match origin with
  | .str publicKey => crypto.verifySignature publicKey sig data
  | origin => codec.verifyOther origin sig data

/-- The value a datagram carries, if its claimed origin has signed it. -/
def unpacked (data : Bytes) : Option Json := do
  let (version, message, sig) ← matchDatagram (trim (decodeUtf8 data))
  if numberOf version = VERSION_4 then
    let inflated ← codec.inflate message
    let j ← codec.jsonParse (decodeUtf8 inflated)
    let origin ← (Json.read WireField.origin.name (some j)).join
    if origin.truthy && verifyOrigin crypto codec origin sig message then some j else none
  else none

/-- `_unpack`: whatever goes wrong, the message is the empty object then. -/
def unpack (data : Bytes) : Json := (unpacked crypto codec data).getD (.obj [])

/-- **The way through `_unpack`**: the text on the wire, its signature, what it
inflates to, and the value and its claimed origin. -/
structure Unpacks (data : Bytes) (message sig : Text) (inflated : Bytes) (origin j : Json) :
    Prop where
  matched : ∃ version, matchDatagram (trim (decodeUtf8 data)) = some (version, message, sig)
    ∧ numberOf version = VERSION_4
  inflate : codec.inflate message = some inflated
  parse : codec.jsonParse (decodeUtf8 inflated) = some j
  claimed : Json.read WireField.origin.name (some j) = some (some origin)
  truthy : origin.truthy = true
  verified : verifyOrigin crypto codec origin sig message = true

end

theorem unpacked_eq_some_iff {crypto : Crypto} {codec : Codec} {data : Bytes} {j : Json} :
    unpacked crypto codec data = some j
      ↔ ∃ message sig inflated origin, Unpacks crypto codec data message sig inflated origin j := by
  unfold unpacked
  simp only [Option.bind_eq_bind]
  constructor
  · intro h
    obtain ⟨⟨version, message, sig⟩, hmatch, h⟩ := Option.bind_eq_some_iff.mp h
    dsimp only at h
    split at h
    next hversion =>
      obtain ⟨inflated, hinflate, h⟩ := Option.bind_eq_some_iff.mp h
      obtain ⟨k, hparse, h⟩ := Option.bind_eq_some_iff.mp h
      obtain ⟨origin, horigin, h⟩ := Option.bind_eq_some_iff.mp h
      split at h
      next hok =>
        obtain rfl := Option.some.inj h
        rw [Bool.and_eq_true] at hok
        exact ⟨message, sig, inflated, origin, ⟨version, hmatch, hversion⟩, hinflate, hparse,
          Option.join_eq_some_iff.mp horigin, hok.1, hok.2⟩
      next => exact nomatch h
    next => exact nomatch h
  · rintro ⟨message, sig, inflated, origin, h⟩
    obtain ⟨version, hmatch, hversion⟩ := h.matched
    rw [hmatch, Option.bind_some]
    dsimp only
    rw [if_pos hversion, h.inflate, Option.bind_some, h.parse, Option.bind_some, h.claimed,
      Option.join_some, Option.bind_some, h.truthy, h.verified]
    rfl

/-- `type()`; `none` where it throws. -/
def typeOf (message : Json) : Option Json := do
  let data ← Json.read WireField.data.name (some message)
  let type ← Json.read WireField.type.name data
  match type with
  | some type => return if type.truthy then type else .int 0
  | none => return .int 0

/-- `Validation.validateMessage` on what has been unpacked: the outer `none`
where `type()` throws, the inner one where the message is turned away. -/
def validateUnpacked (message : Json) : Option (Option Message) := do
  let type ← typeOf message
  match type with
  | .int n =>
      if (TYPE_ADD_TX : Int) ≤ n ∧ n ≤ TYPE_STATUS then
        return (Message.ofJson message).filter validateMessage
      else return none
  | _ => return none

/-- The value has data, of whatever kind. -/
def HasData (message : Json) : Prop :=
  ∃ data, Json.read WireField.data.name (some message) = some (some data) ∧ data ≠ .null

/-- **`type()` throws exactly on a message without data.** -/
theorem typeOf_isSome_iff (message : Json) : (typeOf message).isSome = true ↔ HasData message := by
  unfold typeOf HasData
  cases hdata : Json.read WireField.data.name (some message) with
  | none => simp
  | some data =>
      cases data with
      | none => simp [Json.read]
      | some data =>
          have htype : (Json.read WireField.type.name (some data)).isSome = true
              ↔ data ≠ .null := by
            cases data <;> simp [Json.read]
          cases hread : Json.read WireField.type.name (some data) with
          | none =>
              rw [hread] at htype
              simpa [hread] using htype
          | some type =>
              rw [hread] at htype
              have hsome : data ≠ .null := htype.mp rfl
              cases type <;> simp [hread, hsome]

/-- The check throws exactly where `type()` does. -/
theorem validateUnpacked_isSome_iff (message : Json) :
    (validateUnpacked message).isSome = true ↔ HasData message := by
  rw [← typeOf_isSome_iff]
  unfold validateUnpacked
  cases typeOf message with
  | none => simp
  | some type =>
      cases type with
      | int n =>
          simp only [Option.bind_eq_bind, Option.bind_some]
          split <;> simp
      | _ => simp

/-- The value matches `message.json`. -/
def Matches (message : Json) : Prop :=
  ∃ m, Message.ofJson message = some m ∧ validateMessage m = true

/-- **What passes the check** is what matches the schema; its type is one of the
five then. -/
theorem validateUnpacked_eq_some_iff (message : Json) (m : Message) :
    validateUnpacked message = some (some m)
      ↔ Message.ofJson message = some m ∧ validateMessage m = true := by
  have hfilter : (Message.ofJson message).filter validateMessage = some m
      ↔ Message.ofJson message = some m ∧ validateMessage m = true :=
    Option.filter_eq_some_iff
  constructor
  · intro h
    unfold validateUnpacked at h
    obtain ⟨type, -, h⟩ := Option.bind_eq_some_iff.mp h
    split at h
    · split at h
      · exact hfilter.mp (Option.some.inj h)
      · exact nomatch Option.some.inj h
    · exact nomatch Option.some.inj h
  · intro h
    have hread := Message.readFrom h.1
    obtain ⟨d, hdata, hd⟩ := hread.data
    have htype : typeOf message = some (.int m.data.type) := by
      unfold typeOf
      rw [hdata]
      simp only [Option.bind_eq_bind, Option.bind_some, MessageData.read_type hd]
      have hpos : (Json.int m.data.type).truthy = true := by
        cases m.data <;> rfl
      rw [if_pos hpos]
      rfl
    have hrange : (TYPE_ADD_TX : Int) ≤ (m.data.type : Int) ∧ (m.data.type : Int) ≤ TYPE_STATUS := by
      cases m.data <;> simp [MessageData.type, TYPE_ADD_TX, TYPE_PROPOSE_BLOCK, TYPE_SIGN_BLOCK,
        TYPE_CONFIRM_BLOCK, TYPE_STATUS]
    unfold validateUnpacked
    rw [htype]
    simp only [Option.bind_eq_bind, Option.bind_some]
    rw [if_pos hrange, hfilter.mpr h]
    rfl

/-! ## §7. A table of messages. -/

/-- A message on the wire, the text it inflates to, and the value of this text. -/
structure Packed where
  wire : Text
  text : Text
  value : Json

/-- The bytes of an ASCII text. -/
def asciiBytes (t : Text) : Bytes := t.map fun c => c.toNat.toUInt8

/-- Packing and parsing for the messages of a table, all of them ASCII. -/
def tableCodec (table : List Packed) : Codec where
  inflate t := (table.find? fun p => decide (p.wire = t)).map fun p => asciiBytes p.text
  jsonParse t := (table.find? fun p => decide (p.text = t)).map Packed.value
  verifyOther _ _ _ := false

/-- The datagram with this message and this signature. -/
def datagramOf (wire sig : Text) : Bytes := asciiBytes (['4', ';'] ++ wire ++ ';' :: sig ++ ['\n'])

/-- The first message of a table, signed by its origin, unpacks to its value. -/
theorem unpacked_datagramOf {crypto : Crypto} {p : Packed} {table : List Packed}
    {sig publicKey : Text}
    (hmatch : matchDatagram (trim (decodeUtf8 (datagramOf p.wire sig)))
      = some (['4'], p.wire, sig))
    (htext : decodeUtf8 (asciiBytes p.text) = p.text)
    (horigin : Json.read WireField.origin.name (some p.value) = some (some (.str publicKey)))
    (htruthy : (Json.str publicKey).truthy = true)
    (hverified : crypto.verifySignature publicKey sig p.wire = true) :
    unpacked crypto (tableCodec (p :: table)) (datagramOf p.wire sig) = some p.value := by
  refine unpacked_eq_some_iff.mpr ⟨p.wire, sig, asciiBytes p.text, .str publicKey,
    ⟨['4'], hmatch, by decide⟩, ?_, ?_, horigin, htruthy, hverified⟩
  · simp [tableCodec]
  · simp [tableCodec, htext]

end Divachain
