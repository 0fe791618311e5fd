import BraceLisp.Value.Render
import BraceLisp.Proofs.Occurrence
import BraceLisp.Proofs.Reading
import BraceLisp.Proofs.WellFormed

/-!
The values that can be written in a program.

They are what a program reads as, if no error stands in that (`Form.WellFormed.printable`). How
deep their brackets nest is said here as well.
-/

namespace BraceLisp

open Grammar

namespace Value

/-- A number, a symbol that the grammar takes for one, or a list of printable values. -/
inductive Printable : Value → Prop where
  | number (n : Int64) : Printable (.number n)
  | symbol {name : String} (hword : IsWord name.toList)
      (hnumeral : isNumeral name.toList = false) : Printable (.symbol name)
  | sexpr {cells : List Value} (hcells : ∀ c ∈ cells, Printable c) : Printable (.sexpr cells)
  | qexpr {cells : List Value} (hcells : ∀ c ∈ cells, Printable c) : Printable (.qexpr cells)

lemma Printable.list {cells : List Value} (kind : Bracket) (h : ∀ c ∈ cells, c.Printable) :
    (kind.list cells).Printable := by
  cases kind
  · exact .sexpr h
  · exact .qexpr h

mutual

/-- How deep the brackets nest that a value is written with. -/
def nesting : Value → Nat
  | closure _ body _ => nestingAll body + 2
  | sexpr cells => nestingAll cells + 1
  | qexpr cells => nestingAll cells + 1
  | _ => 0

def nestingAll : List Value → Nat
  | [] => 0
  | v :: vs => max v.nesting (nestingAll vs)

end

lemma nesting_le_nestingAll {v : Value} {vs : List Value} (h : v ∈ vs) :
    v.nesting ≤ nestingAll vs := by
  induction vs with
  | nil => cases h
  | cons w vs ih =>
    rw [nestingAll]
    rcases List.mem_cons.mp h with rfl | h
    · exact Nat.le_max_left _ _
    · exact Nat.le_trans (ih h) (Nat.le_max_right _ _)

end Value

namespace Form

lemma mem_values {fs : List Form} {v : Value} : v ∈ values fs ↔ ∃ f ∈ fs, f.value = v := by
  rw [values_eq_map, List.mem_map]

/-- A well-formed form reads as a printable value, if no error stands in that. -/
lemma WellFormed.printable {f : Form} (h : f.WellFormed) (hfree : f.value.ErrorFree) :
    f.value.Printable := by
  induction h with
  | @number span text hnumeral =>
    unfold value Value.ofNumeral at hfree ⊢
    split
    · exact .number _
    · next hnone =>
      rw [hnone] at hfree
      exact Bool.noConfusion hfree.self
  | symbol hword hnumeral => exact .symbol hword hnumeral
  | @group kind span members _ ih =>
    have hmembers : ∀ v ∈ values members, v.ErrorFree := by
      cases kind
      · exact (Value.all_sexpr.mp hfree).2
      · exact (Value.all_qexpr.mp hfree).2
    refine .list kind fun v hv => ?_
    obtain ⟨f, hf, rfl⟩ := mem_values.mp hv
    exact ih f hf (hmembers _ (mem_values.mpr ⟨f, hf, rfl⟩))

end Form

end BraceLisp
