/-
  Divachain.Chain.Stepwise — a block applied one command after the other.

  `processState` in the code suspends after every command and finds the next one
  by its place.  If nothing happens in between, this comes to the same as one pass
  over the transactions: the same ledger, and the same commands written back.
-/
import Divachain.Chain.Ledger

namespace Divachain

namespace Ledger

/-- The command at this place is applied and written back; behind the last one
nothing is done. -/
def writeAt (s : Ledger × List TransactionStruct) (k : Nat) : Ledger × List TransactionStruct :=
  match (commandsOf s.2)[k]? with
  | some oc =>
      let r := s.1.processCommand oc.1 oc.2
      (r.1, setCommandOf s.2 k r.2)
  | none => s

/-- The commands behind the first transaction. -/
theorem writeAt_behind (l : Ledger) (t : TransactionStruct) (tx : List TransactionStruct)
    (k : Nat) :
    writeAt (l, t :: tx) (t.commands.length + k)
      = ((writeAt (l, tx) k).1, t :: (writeAt (l, tx) k).2) := by
  have hplace : (commandsOf (t :: tx))[t.commands.length + k]? = (commandsOf tx)[k]? := by
    rw [commandsOf_cons, List.getElem?_append_right (by simp)]
    simp
  have hset : ∀ c, setCommandOf (t :: tx) (t.commands.length + k) c = t :: setCommandOf tx k c := by
    intro c
    rw [setCommandOf, if_neg (by omega), Nat.add_sub_cancel_left]
  unfold writeAt
  dsimp only
  rw [hplace]
  cases (commandsOf tx)[k]? with
  | none => rfl
  | some oc =>
    dsimp only
    rw [hset]

theorem foldl_behind (t : TransactionStruct) :
    ∀ (l : Ledger) (tx : List TransactionStruct) (ks : List Nat),
      (ks.map (t.commands.length + ·)).foldl writeAt (l, t :: tx)
        = ((ks.foldl writeAt (l, tx)).1, t :: (ks.foldl writeAt (l, tx)).2)
  | _, _, [] => rfl
  | l, tx, k :: ks => by
      rw [List.map_cons, List.foldl_cons, List.foldl_cons, writeAt_behind, foldl_behind t]

/-- A command of the first transaction. -/
theorem writeAt_within {t : TransactionStruct} {before after : List Command} {c : Command}
    (h : t.commands = before ++ c :: after) (l : Ledger) (tx : List TransactionStruct) :
    writeAt (l, t :: tx) before.length
      = ((l.processCommand t.origin c).1,
        { t with commands := before ++ (l.processCommand t.origin c).2 :: after } :: tx) := by
  have hlt : before.length < t.commands.length := by
    rw [h, List.length_append, List.length_cons]
    omega
  have hplace : (commandsOf (t :: tx))[before.length]? = some (t.origin, c) := by
    rw [commandsOf_cons, List.getElem?_append_left (by simpa using hlt), List.getElem?_map, h]
    simp
  unfold writeAt
  dsimp only
  rw [hplace]
  dsimp only
  rw [setCommandOf, if_pos hlt, h]
  simp

theorem length_processCommands (origin : Text) :
    ∀ (l : Ledger) (cs : List Command), (l.processCommands origin cs).2.length = cs.length
  | _, [] => rfl
  | l, c :: cs => by
      show (((l.processCommand origin c).1.processCommands origin cs).2).length + 1 = cs.length + 1
      rw [length_processCommands origin]

/-- The commands of the first transaction, from one of them on. -/
theorem foldl_within (tx : List TransactionStruct) :
    ∀ (after before : List Command) (l : Ledger) (t : TransactionStruct),
      t.commands = before ++ after →
        (List.range' before.length after.length).foldl writeAt (l, t :: tx)
          = ((l.processCommands t.origin after).1,
            { t with commands := before ++ (l.processCommands t.origin after).2 } :: tx)
  | [], before, l, t, h => by
      show (l, t :: tx) = (l, { t with commands := before ++ [] } :: tx)
      rw [← h]
  | c :: after, before, l, t, h => by
      set r := l.processCommand t.origin c with hr
      set t' : TransactionStruct := { t with commands := before ++ r.2 :: after } with ht'
      -- the command written back belongs to those that are done
      have hnext : t'.commands = (before ++ [r.2]) ++ after := by
        rw [ht', List.append_assoc]
        rfl
      have hlength : (before ++ [r.2]).length = before.length + 1 := by
        rw [List.length_append, List.length_singleton]
      have hrest := foldl_within tx after (before ++ [r.2]) r.1 t' hnext
      rw [hlength] at hrest
      rw [List.length_cons, List.range'_succ, List.foldl_cons, writeAt_within h, ← hr, ← ht', hrest]
      show (_, { t with commands := (before ++ [r.2]) ++ (r.1.processCommands t.origin after).2 } :: tx)
        = (_, { t with commands := before ++ (l.processCommands t.origin (c :: after)).2 } :: tx)
      rw [List.append_assoc]
      rfl

/-- **Command after command is the same as in one pass.** -/
theorem foldl_writeAt :
    ∀ (l : Ledger) (tx : List TransactionStruct),
      (List.range (commandsOf tx).length).foldl writeAt (l, tx) = l.processState tx
  | _, [] => rfl
  | l, t :: tx => by
      set r := l.processCommands t.origin t.commands with hr
      have hfirst : (List.range t.commands.length).foldl writeAt (l, t :: tx)
          = (r.1, { t with commands := r.2 } :: tx) := by
        rw [List.range_eq_range']
        exact foldl_within tx t.commands [] l t rfl
      have hlength : r.2.length = t.commands.length := length_processCommands t.origin l t.commands
      have hrest := foldl_behind { t with commands := r.2 } r.1 tx (List.range (commandsOf tx).length)
      rw [foldl_writeAt r.1 tx] at hrest
      dsimp only at hrest
      rw [hlength] at hrest
      rw [commandsOf_cons, List.length_append, List.length_map, List.range_add, List.foldl_append,
        hfirst, hrest]
      rfl

end Ledger

end Divachain
