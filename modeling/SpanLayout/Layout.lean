import SpanLayout.Relaxation.Run

/-!
# Layout

An object is finalized, relaxed and written. Each phase runs only if nothing went wrong before.
-/

namespace SpanLayout

variable {κ : Type} [Directive κ]

/-- Goes on with a relaxation unless an error was reported. -/
def Relaxation.unlessFailed (s : Relaxation κ) (next : Relaxation κ → Attempt Error (Relaxation κ) Stats) :
    Attempt Error (Relaxation κ) Stats :=
  match s.diags.toError? with
  | some e => .fail s e
  | none => next s

/-- Lays out the sections of a relaxation with the lengths that their fragments have. -/
def Relaxation.lay (s : Relaxation κ) : Relaxation κ :=
  let (sections, diags) := s.sections.lay s.diags
  { s with sections, diags }

/-- Chooses the smallest forms that fit each other. -/
def Sections.relax (config : Config) (diags : Diagnostics) (sections : Sections κ) :
    Attempt Error (Relaxation κ) Stats :=
  let survey := Relaxation.surveySections 0 0 diags sections
  let s : Relaxation κ :=
    ⟨config, survey.measured, [], [], [], .empty, survey.setters.map (⟨·, 0⟩),
      { Stats.zero with spans := survey.seeds.length }, survey.diags⟩
  s.unlessFailed fun s =>
  (survey.seeds.foldl .watch s).unlessFailed fun s =>
  s.lay.unlessFailed fun s =>
  let s := s.recheck
  if s.others = [] then .done s s.stats
  else
    s.prepare.unlessFailed fun s =>
    (s.run config.maxExpansions).unlessFailed fun s =>
    s.lay.unlessFailed fun s => .done s s.stats

namespace Object

/-- Chooses the smallest forms that fit each other, and with them the offset of every fragment. -/
def relax (o : Object κ) (diags : Diagnostics) : Attempt Error (Object κ × Diagnostics) Stats :=
  (o.sections.relax o.config diags).mapState fun s => ({ o with sections := s.sections }, s.diags)

/-- What laying out an object gives: the object as it is left, the images of its sections, and all that was reported. -/
structure Outcome (κ : Type) where
  object : Object κ
  result : Except Error (List Image)
  diags : Diagnostics

/-- Finalizes, relaxes and writes an object. -/
def layout (o : Object κ) : Outcome κ :=
  let (o, diags) := o.finalize (.empty o.config.maxErrors)
  match diags.toError? with
  | some e => ⟨o, .error e, diags⟩
  | none =>
    match o.relax diags with
    | ⟨(o, diags), .error e⟩ => ⟨o, .error e, diags⟩
    | ⟨(o, diags), .ok _⟩ =>
      let (images, diags) := o.images diags
      ⟨o, diags.toResult images, diags⟩

end Object

end SpanLayout
