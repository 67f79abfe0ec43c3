/-
  Divachain.Chain.Transaction — commands, transactions and their JSON text.

  A received object keeps the property order its sender chose, and
  `JSON.stringify` writes that order out again: the hash of a block and the
  signature of a transaction depend on it.  Commands and transactions
  therefore carry the order of their properties (`keys`) next to the values.

  Main results: the text of a command list and the text of a transaction
  list determine the list, for objects that have exactly their required
  properties (`stringifyCommands_injective`, `stringifyTx_injective`).
-/
import Divachain.Chain.Util

namespace Divachain

open DataKit

/-! ## §1. Commands. -/

/-- The property names of commands. -/
inductive Field where
  | seq | command | http | udp | publicKey | ident | stake | ns | d | h
  deriving DecidableEq, Repr

def Field.name : Field → Text
  | .seq => ['s', 'e', 'q']
  | .command => ['c', 'o', 'm', 'm', 'a', 'n', 'd']
  | .http => ['h', 't', 't', 'p']
  | .udp => ['u', 'd', 'p']
  | .publicKey => ['p', 'u', 'b', 'l', 'i', 'c', 'K', 'e', 'y']
  | .ident => ['i', 'd', 'e', 'n', 't']
  | .stake => ['s', 't', 'a', 'k', 'e']
  | .ns => ['n', 's']
  | .d => ['d']
  | .h => ['h']

theorem Field.name_injective : Function.Injective Field.name := by
  intro a b h
  cases a <;> cases b <;> first | rfl | exact absurd h (by decide)

/-- What a command asks for. -/
inductive CommandBody where
  | addPeer (http udp publicKey : Text)
  | removePeer (publicKey : Text)
  | modifyStake (publicKey ident : Text) (stake : Int)
  | data (ns d : Text)
  | decision (ns : Text) (h : Int) (d : Text)
  deriving DecidableEq, Repr

/-- The value of the property `command`. -/
def CommandBody.name : CommandBody → Text
  | .addPeer .. => ['a', 'd', 'd', 'P', 'e', 'e', 'r']
  | .removePeer .. => ['r', 'e', 'm', 'o', 'v', 'e', 'P', 'e', 'e', 'r']
  | .modifyStake .. => ['m', 'o', 'd', 'i', 'f', 'y', 'S', 't', 'a', 'k', 'e']
  | .data .. => ['d', 'a', 't', 'a']
  | .decision .. => ['d', 'e', 'c', 'i', 's', 'i', 'o', 'n']

/-- The properties a command of this kind must have, and may have. -/
def CommandBody.fields : CommandBody → List Field
  | .addPeer .. => [.seq, .command, .http, .udp, .publicKey]
  | .removePeer .. => [.seq, .command, .publicKey]
  | .modifyStake .. => [.seq, .command, .publicKey, .ident, .stake]
  | .data .. => [.seq, .command, .ns, .d]
  | .decision .. => [.seq, .command, .ns, .h, .d]

structure Command where
  seq : Int
  body : CommandBody
  /-- The properties in the order they appear in the object. -/
  keys : List Field
  deriving DecidableEq, Repr

namespace Command

/-- The value of a property: a string or a number. -/
def value (c : Command) : Field → Option (Text ⊕ Int)
  | .seq => some (.inr c.seq)
  | .command => some (.inl c.body.name)
  | .http => match c.body with
      | .addPeer http _ _ => some (.inl http)
      | _ => none
  | .udp => match c.body with
      | .addPeer _ udp _ => some (.inl udp)
      | _ => none
  | .publicKey => match c.body with
      | .addPeer _ _ publicKey => some (.inl publicKey)
      | .removePeer publicKey => some (.inl publicKey)
      | .modifyStake publicKey _ _ => some (.inl publicKey)
      | _ => none
  | .ident => match c.body with
      | .modifyStake _ ident _ => some (.inl ident)
      | _ => none
  | .stake => match c.body with
      | .modifyStake _ _ stake => some (.inr stake)
      | _ => none
  | .ns => match c.body with
      | .data ns _ => some (.inl ns)
      | .decision ns _ _ => some (.inl ns)
      | _ => none
  | .d => match c.body with
      | .data _ d => some (.inl d)
      | .decision _ _ d => some (.inl d)
      | _ => none
  | .h => match c.body with
      | .decision _ h _ => some (.inr h)
      | _ => none

/-- The object as `JSON.stringify` visits it. -/
def members (c : Command) : List (Text × (Text ⊕ Int)) :=
  c.keys.filterMap fun k => (c.value k).map fun v => (k.name, v)

/-- Exactly the required properties, in any order. -/
def WellKeyed (c : Command) : Prop := c.keys.Perm c.body.fields

end Command

def leafText : Text ⊕ Int → Text := Sum.elim quote intText

/-- `JSON.stringify(commands)`. -/
def stringifyCommands (l : List Command) : Text :=
  arrText (objText leafText) (l.map Command.members)

/-! ## §2. Transactions. -/

inductive TxField where
  | ident | origin | commands | sig
  deriving DecidableEq, Repr

def TxField.name : TxField → Text
  | .ident => ['i', 'd', 'e', 'n', 't']
  | .origin => ['o', 'r', 'i', 'g', 'i', 'n']
  | .commands => ['c', 'o', 'm', 'm', 'a', 'n', 'd', 's']
  | .sig => ['s', 'i', 'g']

theorem TxField.name_injective : Function.Injective TxField.name := by
  intro a b h
  cases a <;> cases b <;> first | rfl | exact absurd h (by decide)

structure TransactionStruct where
  ident : Text
  origin : Text
  commands : List Command
  sig : Text
  /-- The properties in the order they appear in the object. -/
  keys : List TxField
  deriving DecidableEq, Repr

namespace TransactionStruct

def value (t : TransactionStruct) : TxField → Text ⊕ List (List (Text × (Text ⊕ Int)))
  | .ident => .inl t.ident
  | .origin => .inl t.origin
  | .commands => .inr (t.commands.map Command.members)
  | .sig => .inl t.sig

def members (t : TransactionStruct) :
    List (Text × (Text ⊕ List (List (Text × (Text ⊕ Int))))) :=
  t.keys.map fun k => (k.name, t.value k)

def fields : List TxField := [.ident, .origin, .commands, .sig]

/-- Exactly the required properties, and the same for every command. -/
def WellKeyed (t : TransactionStruct) : Prop :=
  t.keys.Perm fields ∧ ∀ c ∈ t.commands, c.WellKeyed

end TransactionStruct

def txValueText : Text ⊕ List (List (Text × (Text ⊕ Int))) → Text :=
  Sum.elim quote (arrText (objText leafText))

/-- `JSON.stringify(tx)`. -/
def stringifyTx (l : List TransactionStruct) : Text :=
  arrText (objText txValueText) (l.map TransactionStruct.members)

/-- The text a transaction signature covers: `height + JSON.stringify(commands)`. -/
def signedText (height : Nat) (commands : List Command) : Text :=
  natText height ++ stringifyCommands commands

/-- `new Transaction(wallet, height, ident, commands).get()`. -/
def Transaction.make (crypto : Crypto) (publicKey : Text) (height : Nat) (ident : Text)
    (commands : List Command) : TransactionStruct :=
  { ident := ident
    origin := publicKey
    commands := commands
    sig := crypto.sign publicKey (signedText height commands)
    keys := TransactionStruct.fields }

/-! ## §3. The texts determine the objects. -/

theorem delimited_leaf : Delimited leafText :=
  delimited_sum delimited_quote delimited_int fun s n x y h => by
    obtain ⟨c, t, hct⟩ := List.exists_cons_of_ne_nil (intText_ne_nil n)
    have hc : IsNumeral c := isNumeral_of_mem_intText (hct ▸ List.mem_cons_self)
    rw [quote, hct, List.cons_append, List.cons_append, List.cons.injEq] at h
    obtain ⟨rfl, -⟩ := h
    rcases hc with hc | hc <;> exact absurd hc (by decide)

theorem delimited_commandsText : Delimited (arrText (objText leafText)) :=
  delimited_arr (delimited_obj delimited_leaf)

theorem delimited_txValue : Delimited txValueText :=
  delimited_sum delimited_quote delimited_commandsText fun s l x y h => by
    rw [quote, arrText, List.cons_append, List.cons_append, List.cons.injEq] at h
    exact absurd h.1 (by decide)

/-- Reading a property twice gives one value. -/
theorem Command.members_unique {c d : Command} (hc : c.WellKeyed) (hd : d.WellKeyed)
    (h : c.members = d.members) :
    c.keys = d.keys ∧ ∀ k ∈ c.keys, c.value k = d.value k := by
  -- A well-keyed command has a value for each of its keys, so none is dropped.
  have htotal : ∀ e : Command, e.WellKeyed →
      ∀ k ∈ e.keys, ∃ v, e.value k = some v := by
    intro e he k hk
    have hmem := he.mem_iff.mp hk
    obtain ⟨seq, body, keys⟩ := e
    cases body <;>
      simp only [CommandBody.fields, List.mem_cons, List.not_mem_nil, or_false] at hmem <;>
      rcases hmem with rfl | rfl | rfl | rfl | rfl <;> exact ⟨_, rfl⟩
  -- Induction on the keys of `c`: equal members force equal heads, name first.
  have key : ∀ l m : List Field, (∀ k ∈ l, ∃ v, c.value k = some v) →
      (∀ k ∈ m, ∃ v, d.value k = some v) →
      l.filterMap (fun k => (c.value k).map fun v => (k.name, v))
        = m.filterMap (fun k => (d.value k).map fun v => (k.name, v)) →
      l = m ∧ ∀ k ∈ l, c.value k = d.value k := by
    intro l
    induction l with
    | nil =>
        intro m _ hm hlm
        cases m with
        | nil => exact ⟨rfl, fun k hk => absurd hk List.not_mem_nil⟩
        | cons k m =>
            obtain ⟨v, hv⟩ := hm k List.mem_cons_self
            simp [hv] at hlm
    | cons k l ih =>
        intro m hl hm hlm
        obtain ⟨v, hv⟩ := hl k List.mem_cons_self
        cases m with
        | nil => simp [hv] at hlm
        | cons k' m =>
            obtain ⟨v', hv'⟩ := hm k' List.mem_cons_self
            simp only [List.filterMap_cons, hv, hv', Option.map_some, List.cons.injEq,
              Prod.mk.injEq] at hlm
            obtain ⟨⟨hname, rfl⟩, hrest⟩ := hlm
            obtain rfl := Field.name_injective hname
            obtain ⟨rfl, hval⟩ := ih m (fun k hk => hl k (List.mem_cons_of_mem _ hk))
              (fun k hk => hm k (List.mem_cons_of_mem _ hk)) hrest
            refine ⟨rfl, ?_⟩
            intro j hj
            rcases List.mem_cons.mp hj with rfl | hj
            · rw [hv, hv']
            · exact hval j hj
  exact key c.keys d.keys (htotal c hc) (htotal d hd) h

/-- The value of `command` tells the kinds apart. -/
theorem CommandBody.ctorIdx_eq_of_name {a b : CommandBody} (h : a.name = b.name) :
    a.ctorIdx = b.ctorIdx := by
  cases a <;> cases b <;>
    first
      | rfl
      | exact absurd h (by simp only [CommandBody.name]; decide)

theorem Command.body_eq_of_value {c d : Command}
    (h : ∀ k ∈ c.body.fields, c.value k = d.value k) : c.body = d.body := by
  obtain ⟨cseq, cbody, ckeys⟩ := c
  obtain ⟨dseq, dbody, dkeys⟩ := d
  have hname := h .command (by cases cbody <;> simp [CommandBody.fields])
  -- The member `command` gives the kind, and the fields of the kind give the rest.
  have hkind : cbody.ctorIdx = dbody.ctorIdx :=
    CommandBody.ctorIdx_eq_of_name (Sum.inl.inj (Option.some.inj hname))
  cases cbody with
  | addPeer http udp publicKey =>
      cases dbody with
      | addPeer http' udp' publicKey' =>
          have h1 := h .http (by simp [CommandBody.fields])
          have h2 := h .udp (by simp [CommandBody.fields])
          have h3 := h .publicKey (by simp [CommandBody.fields])
          simp_all [Command.value]
      | _ => exact nomatch hkind
  | removePeer publicKey =>
      cases dbody with
      | removePeer publicKey' =>
          have h1 := h .publicKey (by simp [CommandBody.fields])
          simp_all [Command.value]
      | _ => exact nomatch hkind
  | modifyStake publicKey ident stake =>
      cases dbody with
      | modifyStake publicKey' ident' stake' =>
          have h1 := h .publicKey (by simp [CommandBody.fields])
          have h2 := h .ident (by simp [CommandBody.fields])
          have h3 := h .stake (by simp [CommandBody.fields])
          simp_all [Command.value]
      | _ => exact nomatch hkind
  | data ns d =>
      cases dbody with
      | data ns' d' =>
          have h1 := h .ns (by simp [CommandBody.fields])
          have h2 := h .d (by simp [CommandBody.fields])
          simp_all [Command.value]
      | _ => exact nomatch hkind
  | decision ns height d =>
      cases dbody with
      | decision ns' height' d' =>
          have h1 := h .ns (by simp [CommandBody.fields])
          have h2 := h .h (by simp [CommandBody.fields])
          have h3 := h .d (by simp [CommandBody.fields])
          simp_all [Command.value]
      | _ => exact nomatch hkind

/-- **The members of a command determine it.** -/
theorem Command.eq_of_members {c d : Command} (hc : c.WellKeyed) (hd : d.WellKeyed)
    (h : c.members = d.members) : c = d := by
  obtain ⟨hkeys, hval⟩ := Command.members_unique hc hd h
  have hread : ∀ k ∈ c.body.fields, c.value k = d.value k :=
    fun k hk => hval k (hc.mem_iff.mpr hk)
  have hbody := Command.body_eq_of_value hread
  have hseq := hread .seq (by cases c.body <;> simp [CommandBody.fields])
  obtain ⟨cseq, cbody, ckeys⟩ := c
  obtain ⟨dseq, dbody, dkeys⟩ := d
  simp only [Command.value, Option.some.injEq, Sum.inr.injEq] at hkeys hbody hseq
  subst hkeys hbody hseq
  rfl

theorem Command.list_eq_of_members :
    ∀ {l m : List Command}, (∀ c ∈ l, c.WellKeyed) → (∀ c ∈ m, c.WellKeyed) →
      l.map Command.members = m.map Command.members → l = m
  | [], [], _, _, _ => rfl
  | [], _ :: _, _, _, h => by simp at h
  | _ :: _, [], _, _, h => by simp at h
  | c :: l, d :: m, hl, hm, h => by
      rw [List.map_cons, List.map_cons, List.cons.injEq] at h
      rw [Command.eq_of_members (hl c List.mem_cons_self) (hm d List.mem_cons_self) h.1,
        Command.list_eq_of_members (fun c hc => hl c (List.mem_cons_of_mem _ hc))
          (fun c hc => hm c (List.mem_cons_of_mem _ hc)) h.2]

/-- **The text of a command list determines it.** -/
theorem stringifyCommands_injective {l m : List Command}
    (hl : ∀ c ∈ l, c.WellKeyed) (hm : ∀ c ∈ m, c.WellKeyed)
    (h : stringifyCommands l = stringifyCommands m) : l = m :=
  Command.list_eq_of_members hl hm (delimited_commandsText.injective h)

theorem TransactionStruct.eq_of_members {t u : TransactionStruct} (ht : t.WellKeyed)
    (hu : u.WellKeyed) (h : t.members = u.members) : t = u := by
  -- Equal members give the order of the keys; the values follow at each key.
  have hkeys : t.keys = u.keys := by
    have hnames := congrArg (List.map Prod.fst) h
    simp only [members, List.map_map] at hnames
    exact (List.map_injective_iff.mpr TxField.name_injective) hnames
  have hval : ∀ k, t.value k = u.value k := by
    intro k
    have hk : k ∈ t.keys := ht.1.mem_iff.mpr (by cases k <;> decide)
    simp only [members, ← hkeys] at h
    exact (Prod.mk.injEq .. ▸ List.map_inj_left.mp h k hk).2
  have hident := hval .ident
  have horigin := hval .origin
  have hcommands := hval .commands
  have hsig := hval .sig
  simp only [value, Sum.inl.injEq, Sum.inr.injEq] at hident horigin hcommands hsig
  have hcmds := Command.list_eq_of_members ht.2 hu.2 hcommands
  obtain ⟨_, _, _, _, _⟩ := t
  obtain ⟨_, _, _, _, _⟩ := u
  simp_all

theorem TransactionStruct.list_eq_of_members :
    ∀ {l m : List TransactionStruct}, (∀ t ∈ l, t.WellKeyed) → (∀ t ∈ m, t.WellKeyed) →
      l.map TransactionStruct.members = m.map TransactionStruct.members → l = m
  | [], [], _, _, _ => rfl
  | [], _ :: _, _, _, h => by simp at h
  | _ :: _, [], _, _, h => by simp at h
  | t :: l, u :: m, hl, hm, h => by
      rw [List.map_cons, List.map_cons, List.cons.injEq] at h
      rw [TransactionStruct.eq_of_members (hl t List.mem_cons_self)
          (hm u List.mem_cons_self) h.1,
        TransactionStruct.list_eq_of_members (fun t ht => hl t (List.mem_cons_of_mem _ ht))
          (fun t ht => hm t (List.mem_cons_of_mem _ ht)) h.2]

/-- **The text of a transaction list determines it.** -/
theorem stringifyTx_injective {l m : List TransactionStruct}
    (hl : ∀ t ∈ l, t.WellKeyed) (hm : ∀ t ∈ m, t.WellKeyed)
    (h : stringifyTx l = stringifyTx m) : l = m :=
  TransactionStruct.list_eq_of_members hl hm
    ((delimited_arr (delimited_obj delimited_txValue)).injective h)

/-- A signed text is the height followed by the text of the commands. -/
theorem signedText_split {h k : Nat} {l m : List Command}
    (heq : signedText h l = signedText k m) :
    h = k ∧ stringifyCommands l = stringifyCommands m := by
  have hstop : ∀ l : List Command,
      StopsAt (fun c => c.isDigit = true) (stringifyCommands l) :=
    fun _ => by
      show ¬ ('[' : Char).isDigit = true
      decide
  obtain ⟨hnat, hjson⟩ := span_unique (P := fun c => c.isDigit = true)
    (fun _ hc => isDigit_of_mem_natText hc) (fun _ hc => isDigit_of_mem_natText hc)
    (hstop l) (hstop m) heq
  exact ⟨natText_injective hnat, hjson⟩

/-- **A signed text determines the height and the commands.** -/
theorem signedText_unique {h k : Nat} {l m : List Command}
    (hl : ∀ c ∈ l, c.WellKeyed) (hm : ∀ c ∈ m, c.WellKeyed)
    (heq : signedText h l = signedText k m) : h = k ∧ l = m := by
  obtain ⟨hheight, hjson⟩ := signedText_split heq
  exact ⟨hheight, stringifyCommands_injective hl hm hjson⟩

end Divachain
