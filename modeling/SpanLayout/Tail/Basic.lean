import SpanLayout.Block
import SpanLayout.Tail.Align
import SpanLayout.Tail.Branch
import SpanLayout.Tail.Gap
import SpanLayout.Tail.Leb128
import SpanLayout.Tail.Origin

/-!
# Tails

The directives of the library, with repetition among them, whose body is a block of its own. Clients add theirs through
the type `κ`; `Tail Empty` has the built-in ones only.
-/

namespace SpanLayout

/-- What decides the tail of a fragment. -/
inductive Tail (κ : Type) where
  | gap (g : Gap)
  | align (a : Align)
  | origin (o : Origin)
  | leb128 (f : Leb128.Field)
  | branch (b : Branch)
  /-- The body, as often as `count` says; `reps` is the number of times as far as it is known. -/
  | times (count : Expr) (body : Block (Tail κ)) (reps : Nat)
  | other (d : κ)

namespace Tail

variable {κ : Type} [Directive κ]

/-- What the directive is called in messages. -/
def kind : Tail κ → String
  | gap g => Directive.kind g
  | align a => Directive.kind a
  | origin o => Directive.kind o
  | leb128 f => Directive.kind f
  | branch b => Directive.kind b
  | times _ _ _ => "times"
  | other d => Directive.kind d

/-- Whether the length follows the offset. -/
def setsOffset : Tail κ → Bool
  | gap g => Directive.setsOffset g
  | align a => Directive.setsOffset a
  | origin o => Directive.setsOffset o
  | leb128 f => Directive.setsOffset f
  | branch b => Directive.setsOffset b
  | times _ _ _ => false
  | other d => Directive.setsOffset d

end Tail

variable {κ : Type}

/-- Whether the length of the fragment follows its offset. -/
def Fragment.setsOffset [Directive κ] (f : Fragment (Tail κ)) : Bool := f.tail.any Tail.setsOffset

/-- Appends a gap, or makes the one that the block ends with larger. -/
def Block.appendGap (b : Block (Tail κ)) (size : Nat) (source : SourcePos) : Block (Tail κ) :=
  match b.lastGap with
  | some before =>
    { b.modifyLast (·.withTail (.gap ⟨before + size⟩)) with lastGap := some (before + size) }
  | none => { b.appendTail (.gap ⟨size⟩) source with lastGap := some size }

end SpanLayout
