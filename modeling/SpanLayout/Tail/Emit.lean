import SpanLayout.Tail.Basic

/-!
# Emitting

The bytes of tails, fragments and runs of fragments, given the section offset at which they begin.
-/

namespace SpanLayout

variable {κ : Type} [Directive κ]

mutual

/-- The bytes of a tail; a repetition emits its body again and again. -/
def Tail.emit (site : Site) (at_ : Nat) (info : FragmentInfo) : Tail κ → Except Error Emission
  | .gap g => Directive.emit site at_ info g
  | .align a => Directive.emit site at_ info a
  | .origin o => Directive.emit site at_ info o
  | .leb128 f => Directive.emit site at_ info f
  | .branch b => Directive.emit site at_ info b
  | .other d => Directive.emit site at_ info d
  | .times _ body reps => Emission.times (fun at_ => emitFragments site at_ body.fragments) reps at_

/-- The bytes of a fragment: the fixed ones with their fields filled in, then the tail. -/
def Fragment.emit (site : Site) (at_ : Nat) (f : Fragment (Tail κ)) : Except Error Emission := do
  let fixed ← Fixup.patch site at_ f.source f.fixups f.fixed
  match f with
  | { tail := none, .. } => return fixed
  | { tail := some t, .. } => return fixed ++ (← t.emit site (at_ + fixed.length) f.info)

/-- The bytes of fragments one after the other. -/
def emitFragments (site : Site) (at_ : Nat) : List (Fragment (Tail κ)) → Except Error Emission
  | [] => .ok .empty
  | f :: fs => do
    let first ← f.emit site at_
    let rest ← emitFragments site (at_ + first.length) fs
    return first ++ rest

end

end SpanLayout
