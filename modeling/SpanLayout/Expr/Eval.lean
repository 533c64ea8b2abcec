import SpanLayout.Expr.Basic
import SpanLayout.Word

/-!
# Evaluating expressions

Evaluation is exact: every step has to stay within a signed 64-bit word, and the value is unknown as soon as one
does not, or as soon as something is mentioned that has no value.
-/

namespace SpanLayout.Expr

/-- What slots and locations are worth. -/
structure Env where
  slot : Nat → Option Int
  loc : Location → Option Int

/-- Values for slots only. -/
def Env.ofSlots (slot : Nat → Option Int) : Env := ⟨slot, fun _ => none⟩

/-- Values for locations only. -/
def Env.ofLocs (loc : Location → Option Int) : Env := ⟨fun _ => none, loc⟩

mutual

/-- The value of an expression. -/
def eval (env : Env) : Expr → Option Int
  | .const v => some v.toInt
  | .sym _ => none
  | .loc l => env.loc l
  | .slot n => env.slot n
  | .neg e => (e.eval env).bind fun v => checked (-v)
  | .sum ts => evalFrom env 0 ts
  | .mul a b => (a.eval env).bind fun x => (b.eval env).bind fun y => checked (x * y)

/-- The value of `acc` plus the terms, added from left to right. -/
def evalFrom (env : Env) (acc : Int) : List Expr → Option Int
  | [] => some acc
  | t :: ts => (t.eval env).bind fun v => (checked (acc + v)).bind fun acc => evalFrom env acc ts

end

end SpanLayout.Expr
