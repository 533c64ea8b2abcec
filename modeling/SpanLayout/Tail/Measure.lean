import SpanLayout.Tail.Basic
import SpanLayout.Tail.Repeat

/-!
# Measuring

The smallest length of every tail, and the spans it depends on.
-/

namespace SpanLayout

variable {κ : Type} [Directive κ]

mutual

/-- Measures a tail. A repetition whose count depends on the layout starts with none. -/
def Tail.measure (info : FragmentInfo) : Tail κ → Attempt Error (Tail κ × List SpanRequest) Nat
  | .gap g => (Directive.measure info g).mapState (Prod.map .gap id)
  | .align a => (Directive.measure info a).mapState (Prod.map .align id)
  | .origin o => (Directive.measure info o).mapState (Prod.map .origin id)
  | .leb128 f => (Directive.measure info f).mapState (Prod.map .leb128 id)
  | .branch b => (Directive.measure info b).mapState (Prod.map .branch id)
  | .other d => (Directive.measure info d).mapState (Prod.map .other id)
  | .times count body reps =>
    match measureBody info 0 0 body.fragments with
    | ⟨(fragments, spans), .error e⟩ => .fail (.times count { body with fragments } reps, spans) e
    | ⟨(fragments, spans), .ok _⟩ =>
      match count.const? with
      | none =>
        .done (.times count { body with fragments } 0,
          spans ++ [⟨Repetition.countId, .ofExpr count, ⟨0, 0⟩⟩]) 0
      | some n =>
        match Repetition.reps info n with
        | .error e => .fail (.times count { body with fragments } reps, spans) e
        | .ok reps =>
          .done (.times count { body with fragments } reps, spans) (Fragment.sumLen fragments * reps)

/-- Measures a fragment that begins at `offset`. -/
def Fragment.measureAt (offset : Nat) (f : Fragment (Tail κ)) :
    Attempt Error (Fragment (Tail κ) × List SpanRequest) Unit :=
  match f with
  | { tail := none, .. } => .done ({ f with offset, tailLen := 0 }, []) ()
  | { tail := some t, .. } =>
    match t.measure { f.info with offset } with
    | ⟨(t, spans), .ok tailLen⟩ => .done ({ f with offset, tail := some t, tailLen }, spans) ()
    | ⟨(t, spans), .error e⟩ => .fail ({ f with offset, tail := some t }, spans) e

/-- Measures the fragments of a repetition's body from number `slot` on, the first of them at `offset`, up to the first
that fails. -/
def measureBody (owner : FragmentInfo) (slot offset : Nat) :
    List (Fragment (Tail κ)) → Attempt Error (List (Fragment (Tail κ)) × List SpanRequest) Unit
  | [] => .done ([], []) ()
  | f :: fs =>
    match f.measureAt offset with
    | ⟨(f, spans), .error e⟩ => .fail (f :: fs, spans.flatMap (Repetition.relay owner slot)) e
    | ⟨(f, spans), .ok _⟩ =>
      (measureBody owner (slot + 1) (offset + f.totalLen) fs).mapState fun (fs, more) =>
        (f :: fs, spans.flatMap (Repetition.relay owner slot) ++ more)

end

end SpanLayout
