import SpanLayout.Tail.Basic
import SpanLayout.Tail.Repeat

/-!
# Expanding

A tail takes the form that the new value of a span asks for.
-/

namespace SpanLayout

variable {κ : Type} [Directive κ]

mutual

/-- Expands a tail. A repetition takes a new count, or hands the expansion on to the fragment of its body that the
span belongs to. -/
def Tail.expand (info : FragmentInfo) (id old new : Int) : Tail κ → Attempt Error (Tail κ) Expansion
  | .gap g => (Directive.expand info id old new g).mapState .gap
  | .align a => (Directive.expand info id old new a).mapState .align
  | .origin o => (Directive.expand info id old new o).mapState .origin
  | .leb128 f => (Directive.expand info id old new f).mapState .leb128
  | .branch b => (Directive.expand info id old new b).mapState .branch
  | .other d => (Directive.expand info id old new d).mapState .other
  | .times count body reps =>
    if id = Repetition.countId then
      match Repetition.reps info new with
      | .error e => .fail (.times count body reps) e
      | .ok reps => .done (.times count body reps) (.within (Fragment.sumLen body.fragments * reps) 0 0)
    else
      match Repetition.unpack id with
      | none => .fail (.times count body reps) (Cause.tooComplex "repeated bytecode" info.source)
      | some (slot, id) =>
        match expandInBody id old new slot body.fragments with
        | none => .fail (.times count body reps) (Cause.tooComplex "repeated bytecode" info.source)
        | some ⟨fragments, .error e⟩ => .fail (.times count { body with fragments } reps) e
        | some ⟨fragments, .ok x⟩ =>
          .done (.times count { body with fragments := Fragment.placeFrom 0 fragments } reps)
            { x with len := Fragment.sumLen fragments * reps }

/-- Expands a fragment. -/
def Fragment.expand (id old new : Int) (f : Fragment (Tail κ)) : Attempt Error (Fragment (Tail κ)) Expansion :=
  match f with
  | { tail := none, .. } => .done f (.settled 0)
  | { tail := some t, .. } =>
    match t.expand f.info id old new with
    | ⟨t, .ok x⟩ => .done { f with tail := some t, tailLen := x.len } x
    | ⟨t, .error e⟩ => .fail { f with tail := some t } e

/-- Expands fragment number `slot` of a repetition's body, if there is one. -/
def expandInBody (id old new : Int) :
    Nat → List (Fragment (Tail κ)) → Option (Attempt Error (List (Fragment (Tail κ))) Expansion)
  | _, [] => none
  | 0, f :: fs => some ((f.expand id old new).mapState (· :: fs))
  | slot + 1, f :: fs => (expandInBody id old new slot fs).map (·.mapState (f :: ·))

end

/-! ## Offsets -/

/-- Moves a fragment. One whose length follows its offset takes the length for the new one. -/
def Fragment.moveTo (offset : Nat) (f : Fragment (Tail κ)) : Attempt Error (Fragment (Tail κ)) Nat :=
  let f := { f with offset }
  if f.setsOffset then
    let x := f.expand 1 0 (signed f.tailOffset)
    x.mapResult fun _ => x.state.nextOffset
  else .done f f.nextOffset

/-- Moves fragments one after the other, beginning at `offset`, and reports their errors. -/
def layFragments (offset : Nat) (diags : Diagnostics) :
    List (Fragment (Tail κ)) → List (Fragment (Tail κ)) × Diagnostics
  | [] => ([], diags)
  | f :: fs =>
    let x := f.moveTo offset
    let (fs, diags) := layFragments x.state.nextOffset (diags.reportFailure x.result) fs
    (x.state :: fs, diags)

/-- Lays out the fragments of a block with the lengths they have. -/
def Block.lay (diags : Diagnostics) (b : Block (Tail κ)) : Block (Tail κ) × Diagnostics :=
  let (fragments, diags) := layFragments 0 diags b.fragments
  ({ b with fragments }, diags)

end SpanLayout
