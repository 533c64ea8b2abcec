import SpanLayout.Tail.Basic

/-!
# Finalizing

Before layout every symbol is replaced by what it stands for. Fragments are finalized one by one, and an error in one
does not keep the others from being finalized.
-/

namespace SpanLayout

variable {κ : Type} [Directive κ]

mutual

/-- Finalizes a tail. The fragments of a repetition's body become part of the fragment that repeats them. -/
def Tail.finalize (symbols : SymbolTable) (info : FragmentInfo) (diags : Diagnostics) :
    Tail κ → Attempt Error (Tail κ × Diagnostics) Unit
  | .gap g => (Directive.finalize symbols info diags g).mapState (Prod.map .gap id)
  | .align a => (Directive.finalize symbols info diags a).mapState (Prod.map .align id)
  | .origin o => (Directive.finalize symbols info diags o).mapState (Prod.map .origin id)
  | .leb128 f => (Directive.finalize symbols info diags f).mapState (Prod.map .leb128 id)
  | .branch b => (Directive.finalize symbols info diags b).mapState (Prod.map .branch id)
  | .other d => (Directive.finalize symbols info diags d).mapState (Prod.map .other id)
  | .times count body reps =>
    match count.expand symbols with
    | ⟨count, .error _⟩ => .fail (.times count body reps, diags) (Cause.circularReference info.source)
    | ⟨count, .ok _⟩ =>
      let count := count.simplify
      if count.mentionsSym then
        .fail (.times count body reps, diags) (Cause.notAbsolute "repetition count" info.source)
      else
        let (fragments, diags) := finalizeFragments symbols (some info.ref) diags body.fragments
        let tail := .times count { body with fragments } reps
        if fragments.any Fragment.setsOffset then
          .fail (tail, diags) (Cause.tooComplex "alignment or origin inside a repetition" info.source)
        else .done (tail, diags) ()

/-- Finalizes a fragment: its fields, then its tail. It becomes part of the fragment `owner`, if one is given. -/
def Fragment.finalize (symbols : SymbolTable) (owner : Option FragmentRef) (diags : Diagnostics)
    (f : Fragment (Tail κ)) : Attempt Error (Fragment (Tail κ) × Diagnostics) Unit :=
  let ref := owner.getD f.ref
  match Fixup.finalizeAll symbols f.source f.fixups with
  | ⟨fixups, .error e⟩ => .fail ({ f with ref, fixups }, diags) e
  | ⟨fixups, .ok _⟩ =>
    match f with
    | { tail := none, .. } => .done ({ f with ref, fixups }, diags) ()
    | { tail := some t, .. } =>
      (t.finalize symbols { f.info with ref } diags).mapState fun (t, diags) =>
        ({ f with ref, fixups, tail := some t }, diags)

/-- Finalizes fragments and reports their errors. -/
def finalizeFragments (symbols : SymbolTable) (owner : Option FragmentRef) (diags : Diagnostics) :
    List (Fragment (Tail κ)) → List (Fragment (Tail κ)) × Diagnostics
  | [] => ([], diags)
  | f :: fs =>
    let x := f.finalize symbols owner diags
    let (fs, diags) := finalizeFragments symbols owner (x.state.2.reportFailure x.result) fs
    (x.state.1 :: fs, diags)

end

/-- Finalizes the fragments of a block. -/
def Block.finalize (symbols : SymbolTable) (diags : Diagnostics) (b : Block (Tail κ)) :
    Block (Tail κ) × Diagnostics :=
  let (fragments, diags) := finalizeFragments symbols none diags b.fragments
  ({ b with fragments }, diags)

end SpanLayout
