import SpanLayout.Directive

/-!
# Spans inside repetitions

A repetition passes on the spans of its body under ids of its own, from which the fragment of the body and the id it
used can be told again. The copies of the body share one form, so a value that mentions the repetition itself is
watched from both ends: as the first copy sees it and as the last one does.
-/

namespace SpanLayout.Repetition

/-- The id of the span for the number of repetitions. -/
def countId : Int := -1

/-- How far the ids of neighbouring fragments of the body are apart. -/
def stride : Nat := 100

/-- How far the ids for the two ends of the repetition are apart. -/
def anchorStride : Nat := 50

/-- The id under which the span `id` of fragment `slot` is passed on, for one of the two ends. -/
def pack (id : Int) (slot anchor : Nat) : Int :=
  let shift : Int := stride * (slot + 1) + anchorStride * anchor
  if 0 < id then id + shift else id - shift

/-- The fragment of the body that a span belongs to, and the id it used. -/
def unpack (id : Int) : Option (Nat × Int) :=
  match id.natAbs / stride with
  | 0 => none
  | slot + 1 => some (slot, (id.natAbs % stride % anchorStride : Nat) * id.sign)

/-- Passes on a span of fragment `slot` of the body. -/
def relay (owner : FragmentInfo) (slot : Nat) (r : SpanRequest) : List SpanRequest :=
  let first := owner.tailLoc
  let last : Location := ⟨⟨owner.ref.sectionIndex, owner.ref.index + 1⟩, 0⟩
  let fromLast := r.value.mapLoc fun l => if l.fragment = owner.ref then last else l
  if fromLast = r.value then [{ r with id := pack r.id slot 0 }]
  else
    let fromFirst := r.value.mapLoc fun l => if l.fragment = owner.ref then first else l
    [⟨pack r.id slot 0, fromFirst, r.window⟩, ⟨pack r.id slot 1, fromLast, r.window⟩]

/-- The number of repetitions that a count asks for. -/
def reps (info : FragmentInfo) (count : Int) : Except Error Nat :=
  if count = unknownValue then .error (Cause.notAbsolute "repetition count" info.source)
  else if count < 0 then .error (Cause.badValue s!"repetition count is negative ({count})" info.source)
  else .ok count.toNat

end SpanLayout.Repetition
