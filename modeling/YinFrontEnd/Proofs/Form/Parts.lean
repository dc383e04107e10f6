import Mathlib.Logic.Relation
import Mathlib.Tactic.Common
import YinFrontEnd.Form

/-!
# Forms in forms

The parts of a form are the statements of a block, the elements of a group and the value of a
member. What stands in a form is its parts and whatever stands in them.
-/
namespace YinFrontEnd.Form

/-- The forms directly in a form. -/
def parts : Form → List Form
  | block _ fs | group _ _ fs => fs
  | member _ v _ => [v]
  | _ => []

/-- The first form stands in the second, at any depth. -/
def Inside : Form → Form → Prop := Relation.TransGen fun g f => g ∈ f.parts

/-- The first form is the second, or stands in it at any depth. -/
def Within : Form → Form → Prop := Relation.ReflTransGen fun g f => g ∈ f.parts

variable {f g h : Form}

lemma sizeOf_lt_of_mem_parts (h : g ∈ f.parts) : sizeOf g < sizeOf f := by
  cases f with
  | block s fs =>
    have hlt : sizeOf g < sizeOf fs := List.sizeOf_lt_of_mem h
    simp only [block.sizeOf_spec]
    omega
  | group s d fs =>
    have hlt : sizeOf g < sizeOf fs := List.sizeOf_lt_of_mem h
    simp only [group.sizeOf_spec]
    omega
  | member s v n =>
    obtain rfl := List.mem_singleton.mp h
    simp only [member.sizeOf_spec]
    omega
  | _ => exact absurd h (by simp [parts])

lemma Inside.of_part (h : g ∈ f.parts) : g.Inside f := .single h

lemma Inside.trans (hg : h.Inside g) (hf : g.Inside f) : h.Inside f := Relation.TransGen.trans hg hf

lemma Inside.within (h : g.Inside f) : g.Within f := h.to_reflTransGen

lemma Within.refl (f : Form) : f.Within f := Relation.ReflTransGen.refl

lemma Within.trans (hg : h.Within g) (hf : g.Within f) : h.Within f :=
  Relation.ReflTransGen.trans hg hf

/-- No form stands in itself, and going from a form into it comes to an end. -/
theorem wellFounded_inside : WellFounded Inside :=
  (Subrelation.wf sizeOf_lt_of_mem_parts (measure sizeOf).wf).transGen

end YinFrontEnd.Form
