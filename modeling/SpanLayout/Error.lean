import SpanLayout.Source

/-!
# Errors

A `Cause` is one thing that went wrong. An `Error` is a cause or a list of errors reported together.
-/

namespace SpanLayout

/-- One reason for which a layout fails. -/
inductive Cause where
  /-- A value that has to be known before layout is not. -/
  | notConstant (detail : String) (pos : SourcePos)
  /-- A value cannot be computed. -/
  | tooComplex (detail : String) (pos : SourcePos)
  /-- A value still refers to a symbol from elsewhere. -/
  | notAbsolute (detail : String) (pos : SourcePos)
  /-- A definition or a size depends on itself. -/
  | circularReference (pos : SourcePos)
  /-- An origin lies before the data that precedes it. -/
  | originOverlap (target current : Nat) (pos : SourcePos)
  /-- A value is not acceptable where it stands. -/
  | badValue (detail : String) (pos : SourcePos)
  /-- A value that cannot be computed would have to be looked at again. -/
  | secondaryExpansion (pos : SourcePos)
  /-- A symbol is defined twice. -/
  | duplicateLabel (label : String) (pos first : SourcePos)
  /-- A value does not fit its field. -/
  | valueOverflow (value : Int) (size : Nat) (pos : SourcePos)
  /-- A displacement does not fit its encoding. -/
  | branchOutOfRange (disp max : Int) (pos : SourcePos)
  /-- The layout had not settled when the budget ran out. -/
  | relaxationLimit (max : Nat)
  /-- Errors beyond the limit on how many are kept. -/
  | suppressed (count : Nat)
deriving DecidableEq, Repr

/-- One cause, or several errors together. -/
inductive Error where
  | one (cause : Cause)
  | many (errors : List Error)
deriving Repr

instance : Coe Cause Error := ⟨.one⟩

/-! ## Equality -/

mutual

/-- Whether two errors are the same. -/
def Error.same : Error → Error → Bool
  | .one a, .one b => decide (a = b)
  | .many as, .many bs => sameErrors as bs
  | _, _ => false

/-- Whether two lists of errors are the same. -/
def sameErrors : List Error → List Error → Bool
  | [], [] => true
  | a :: as, b :: bs => a.same b && sameErrors as bs
  | _, _ => false

end

mutual

theorem Error.same_iff : ∀ a b : Error, a.same b = true ↔ a = b
  | .one a, .one b => by simp [Error.same]
  | .many as, .many bs => by simp [Error.same, sameErrors_iff as bs]
  | .one _, .many _ => by simp [Error.same]
  | .many _, .one _ => by simp [Error.same]

theorem sameErrors_iff : ∀ as bs : List Error, sameErrors as bs = true ↔ as = bs
  | [], [] => by simp [sameErrors]
  | a :: as, b :: bs => by simp [sameErrors, Error.same_iff a b, sameErrors_iff as bs]
  | [], _ :: _ => by simp [sameErrors]
  | _ :: _, [] => by simp [sameErrors]

end

instance : DecidableEq Error := fun a b => decidable_of_iff _ (Error.same_iff a b)

/-! ## Text -/

/-- A number in hexadecimal, with capital letters. -/
def hexUpper (n : Nat) : String := String.ofList ((Nat.toDigits 16 n).map Char.toUpper)

namespace Cause

/-- Where the cause lies, if it lies anywhere in particular. -/
def pos? : Cause → Option SourcePos
  | notConstant _ p | tooComplex _ p | notAbsolute _ p | circularReference p | originOverlap _ _ p
  | badValue _ p | secondaryExpansion p | duplicateLabel _ p _ | valueOverflow _ _ p
  | branchOutOfRange _ _ p => some p
  | relaxationLimit _ | suppressed _ => none

/-- The text shown to the user. -/
def message : Cause → String
  | notConstant detail p => s!"{p.render}: {detail} must be a constant"
  | tooComplex detail p => s!"{p.render}: {detail} is too complex"
  | notAbsolute detail p => s!"{p.render}: {detail} must be absolute"
  | circularReference p => s!"{p.render}: circular reference detected"
  | originOverlap target current p =>
    s!"{p.render}: ORG 0x{hexUpper target} overlaps already existing data (at 0x{hexUpper current})"
  | badValue detail p => s!"{p.render}: {detail}"
  | secondaryExpansion p => s!"{p.render}: secondary expansion of an external/complex value"
  | duplicateLabel label p first =>
    s!"{p.render}: duplicate label '{label}' (first defined at {first.render})"
  | valueOverflow value size p => s!"{p.render}: value {value} does not fit in {size} byte(s)"
  | branchOutOfRange disp max p =>
    s!"{p.render}: branch target out of range (displacement={disp}, max=±{max})"
  | relaxationLimit max => s!"layout exceeded maximum of {max} expansions before converging"
  | suppressed count => s!"{count} more error(s) not shown"

end Cause

mutual

/-- The text shown to the user: one line a cause. -/
def Error.message : Error → String
  | .one c => c.message
  | .many es => String.intercalate "\n" (messages es)

/-- The texts of a list of errors. -/
def messages : List Error → List String
  | [] => []
  | e :: es => e.message :: messages es

end

/-- Where the error lies, if it lies anywhere in particular. -/
def Error.pos? : Error → Option SourcePos
  | .one c => c.pos?
  | .many _ => none

/-- The errors that were reported together, one level deep. -/
def Error.parts : Error → List Error
  | .one c => [.one c]
  | .many es => es

/-- Something worth telling that does not stop the layout. -/
structure Warning where
  text : String
  pos : SourcePos
deriving DecidableEq, Repr

/-- The text shown to the user. -/
def Warning.message (w : Warning) : String := s!"{w.pos.render}: warning: {w.text}"

end SpanLayout
