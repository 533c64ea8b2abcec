/-!
# Written values

A small tree of values, as text formats for structured data know it, and the rules by which simple types are read from
it: a number has to lie in the range of what it stands for, and nothing is converted.
-/

namespace SpanLayout

/-- A written value. -/
inductive Wire where
  | null
  | bool (b : Bool)
  | int (n : Int)
  | str (s : String)
  | list (items : List Wire)
  | obj (fields : List (String × Wire))
deriving Inhabited, Repr

namespace Wire

/-- A natural number below `bound`. -/
def nat? (bound : Nat) : Wire → Option Nat
  | .int n => if 0 ≤ n ∧ n.toNat < bound then some n.toNat else none
  | _ => none

/-- A number of at most 8 bits. -/
def nat8? : Wire → Option Nat := nat? 256

/-- A number of at most 32 bits. -/
def nat32? : Wire → Option Nat := nat? 4294967296

/-- A number of at most 64 bits. -/
def nat64? : Wire → Option Nat := nat? 18446744073709551616

/-- An integer. -/
def int? : Wire → Option Int
  | .int n => some n
  | _ => none

/-- A signed 64-bit integer. -/
def int64? : Wire → Option Int
  | .int n => if -9223372036854775808 ≤ n ∧ n < 9223372036854775808 then some n else none
  | _ => none

/-- A text. -/
def str? : Wire → Option String
  | .str s => some s
  | _ => none

/-- A truth value. -/
def bool? : Wire → Option Bool
  | .bool b => some b
  | _ => none

/-- A list whose items are all read by `read`. -/
def list? {α : Type} (read : Wire → Option α) : Wire → Option (List α)
  | .list ws => ws.mapM read
  | _ => none

/-- The named fields of an object, all of which have to be there. Others are ignored. -/
def members? (names : List String) : Wire → Option (List Wire)
  | .obj fields => names.mapM fun name => fields.lookup name
  | _ => none

/-- The fields of a record: those of an object by name, or those of a list by position. -/
def record? (names : List String) : Wire → Option (List Wire)
  | .list ws => if ws.length = names.length then some ws else none
  | w => w.members? names

/-- An object with one field, which says what kind of thing its value is. -/
def tagged (tag : String) (w : Wire) : Wire := .obj [(tag, w)]

/-- A natural number. -/
def ofNat (n : Nat) : Wire := .int n

end Wire

end SpanLayout
