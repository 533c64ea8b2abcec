import SpanLayout.Proofs.Placement
import SpanLayout.Proofs.Tail.Requests

/-!
# What becomes of a fragment

While the layout goes on, fragments are expanded and moved, and nothing else is done to them.
-/

namespace SpanLayout

/-- What a fragment can become. -/
inductive Fragment.Reshaped (f : Fragment (Tail Empty)) : Fragment (Tail Empty) → Prop
  | refl : Reshaped f f
  | expand {g : Fragment (Tail Empty)} (h : Reshaped f g) (id old new : Int) : Reshaped f (g.expand id old new).state
  | relaid {g g' : Fragment (Tail Empty)} (h : Reshaped f g) (hr : Relaid g g') : Reshaped f g'

namespace Fragment.Reshaped

theorem trans {f g g' : Fragment (Tail Empty)} (h : Reshaped f g) (h' : Reshaped g g') : Reshaped f g' := by
  induction h' with
  | refl => exact h
  | expand _ id old new ih => exact ih.expand id old new
  | relaid _ hr ih => exact ih.relaid hr

theorem frame {f g : Fragment (Tail Empty)} (h : Reshaped f g) : g.frame = f.frame := by
  induction h with
  | refl => rfl
  | expand _ id old new ih => exact (frame_expand id old new _).trans ih
  | relaid _ hr ih => exact hr.frame.trans ih

theorem steadyInside {f g : Fragment (Tail Empty)} (h : Reshaped f g) (hf : f.steadyInside = true) :
    g.steadyInside = true := by
  induction h with
  | refl => exact hf
  | expand _ id old new ih => exact steadyInside_expand id old new ih
  | relaid _ hr ih =>
    rw [Fragment.steadyInside, hr.tail]
    exact ih

theorem flat {f g : Fragment (Tail Empty)} (h : Reshaped f g) : g.flat = f.flat := by
  induction h with
  | refl => rfl
  | @expand g _ id old new ih => exact (flat_expand id old new g).trans ih
  | relaid _ hr ih =>
    rw [Fragment.flat, hr.tail]
    exact ih

end Fragment.Reshaped

namespace Sections

/-- Every fragment of `tt` is what became of one of `ss`. -/
def Reshaped (ss tt : Sections Empty) : Prop :=
  ∀ r g, tt.fragment? r = some g → ∃ f, ss.fragment? r = some f ∧ f.Reshaped g

theorem Reshaped.refl (ss : Sections Empty) : ss.Reshaped ss := fun _ f hf => ⟨f, hf, .refl⟩

theorem Reshaped.trans {ss tt uu : Sections Empty} (h : ss.Reshaped tt) (h' : tt.Reshaped uu) : ss.Reshaped uu := by
  intro r g hg
  obtain ⟨f, hf, hfg⟩ := h' r g hg
  obtain ⟨e, he, hef⟩ := h r f hf
  exact ⟨e, he, hef.trans hfg⟩

theorem reshaped_setFragment {ss : Sections Empty} {r : FragmentRef} {f g : Fragment (Tail Empty)}
    (hf : ss.fragment? r = some f) (hg : f.Reshaped g) : ss.Reshaped (ss.setFragment r g) := by
  intro r' g' hg'
  by_cases hr : r = r'
  · subst hr
    rw [fragment?_setFragment_self hf, Option.some.injEq] at hg'
    exact ⟨f, hf, hg' ▸ hg⟩
  · rw [fragment?_setFragment_ne hr] at hg'
    exact ⟨g', hg', .refl⟩

theorem reshaped_lay {diags : Diagnostics} {ss : Sections Empty} (hd : (ss.lay diags).2.hasErrors = false)
    (hb : ∀ k, (ss.lay diags).1.length k < 9223372036854775808) : ss.Reshaped (ss.lay diags).1 := by
  intro r g hg
  rcases fragment?_lay hd hb r with ⟨-, hn⟩ | ⟨f, g', hf, hg', hr⟩
  · exact nomatch hn.symm.trans hg
  · obtain rfl := Option.some.inj (hg.symm.trans hg')
    exact ⟨f, hf, Fragment.Reshaped.refl.relaid hr⟩

/-- Nothing inside a fragment follows its offset. -/
def Steady (ss : Sections Empty) : Prop := ∀ r f, ss.fragment? r = some f → f.steadyInside = true

instance (ss : Sections Empty) : Decidable ss.Steady :=
  inferInstanceAs (Decidable (∀ r f, ss.fragment? r = some f → f.steadyInside = true))

/-- No repetition stands in another. -/
def Flat (ss : Sections Empty) : Prop := ∀ r f, ss.fragment? r = some f → f.flat = true

instance (ss : Sections Empty) : Decidable ss.Flat :=
  inferInstanceAs (Decidable (∀ r f, ss.fragment? r = some f → f.flat = true))

/-- Tails are as they are built. -/
def Proper (ss : Sections Empty) : Prop := ∀ r f, ss.fragment? r = some f → f.tail.all Tail.proper = true

instance (ss : Sections Empty) : Decidable ss.Proper :=
  inferInstanceAs (Decidable (∀ r f, ss.fragment? r = some f → f.tail.all Tail.proper = true))

/-- Whether all fragments begin small. -/
def Modest (ss : Sections Empty) : Prop :=
  ∀ r f, ss.fragment? r = some f → f.tail.all (Tail.throughout Tail.ownModest) = true

instance (ss : Sections Empty) : Decidable ss.Modest :=
  inferInstanceAs (Decidable (∀ r f, ss.fragment? r = some f → f.tail.all (Tail.throughout Tail.ownModest) = true))

theorem Proper.modest {ss : Sections Empty} (h : ss.Proper) : ss.Modest := by
  intro r f hf
  have hproper := h r f hf
  rw [Tail.proper_eq] at hproper
  cases ht : f.tail with
  | none => rfl
  | some t =>
    rw [ht] at hproper
    exact Tail.throughout_imp (fun _ => Tail.ownModest_of_ownProper) hproper

theorem Steady.reshaped {ss tt : Sections Empty} (h : ss.Steady) (ht : ss.Reshaped tt) : tt.Steady := by
  intro r g hg
  obtain ⟨f, hf, hfg⟩ := ht r g hg
  exact hfg.steadyInside (h r f hf)

theorem Flat.reshaped {ss tt : Sections Empty} (h : ss.Flat) (ht : ss.Reshaped tt) : tt.Flat := by
  intro r g hg
  obtain ⟨f, hf, hfg⟩ := ht r g hg
  exact hfg.flat.trans (h r f hf)

end Sections

end SpanLayout
