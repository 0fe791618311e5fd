import BraceLisp.Proofs.Scanning

/-!
The forms that a scan makes.

A number has the text of a numeral, a symbol the text of a word that is no numeral. The scan keeps
this of every form it has completed, and knows of the word it is reading that it is one.
-/

namespace BraceLisp

open Grammar

namespace Form

/-- The texts in a form are what the kind of the form says. -/
inductive WellFormed : Form → Prop where
  | number {span : Span} {text : String} (hnumeral : isNumeral text.toList = true) :
      WellFormed (.number span text)
  | symbol {span : Span} {text : String} (hword : IsWord text.toList)
      (hnumeral : isNumeral text.toList = false) : WellFormed (.symbol span text)
  | group {kind : Bracket} {span : Span} {members : List Form}
      (hmembers : ∀ f ∈ members, WellFormed f) : WellFormed (.group kind span members)

lemma WellFormed.word {cs : List Char} (h : IsWord cs) (start : Nat) :
    (word start cs).WellFormed := by
  cases hnumeral : isNumeral cs with
  | true =>
    rw [Form.word, if_pos hnumeral]
    exact .number (by rw [String.toList_ofList]; exact hnumeral)
  | false =>
    rw [Form.word, hnumeral, if_neg Bool.false_ne_true]
    refine .symbol ?_ ?_ <;> rw [String.toList_ofList]
    · exact h
    · exact hnumeral

end Form

namespace Scan

/-- A word is being read, and all forms that are complete are well formed. -/
structure WellFormed (s : Scan) : Prop where
  word : ∀ start chars, s.place = .word start chars → IsWord chars.reverse
  level : ∀ f ∈ s.level, f.WellFormed
  groups : ∀ g ∈ s.groups, ∀ f ∈ g.before, f.WellFormed

lemma wellFormed_init : init.WellFormed where
  word _ _ h := nomatch h
  level _ h := nomatch h
  groups _ h := nomatch h

variable {s t : Scan} {c : Char}

lemma WellFormed.settle (h : s.WellFormed) : s.settle.WellFormed := by
  unfold Scan.settle
  split
  · next start chars hplace =>
    refine ⟨fun _ _ hword => (nomatch hword), fun f hf => ?_, h.groups⟩
    rcases List.mem_cons.mp hf with rfl | hf
    · exact .word (h.word start chars hplace) start
    · exact h.level f hf
  · exact h

lemma WellFormed.start (h : s.WellFormed) (hstart : s.start c = some t) : t.WellFormed := by
  rcases start_cases hstart with ⟨-, rfl⟩ | ⟨-, rfl⟩ | ⟨hc, rfl⟩ | ⟨b, -, rfl⟩ |
    ⟨g, gs, -, hgroups, rfl⟩
  · exact ⟨h.word, h.level, h.groups⟩
  · exact ⟨fun _ _ hword => (nomatch hword), h.level, h.groups⟩
  · refine ⟨fun start chars hword => ?_, h.level, h.groups⟩
    cases hword
    exact .singleton hc
  · refine ⟨fun _ _ hword => (nomatch hword), fun _ hf => (nomatch hf), fun g hg => ?_⟩
    rcases List.mem_cons.mp hg with rfl | hg
    · exact h.level
    · exact h.groups g hg
  · refine ⟨fun _ _ hword => (nomatch hword), fun f hf => ?_, fun g' hg' => ?_⟩
    · rcases List.mem_cons.mp hf with rfl | hf
      · exact .group fun f hf => h.level f (List.mem_reverse.mp hf)
      · exact h.groups g (by rw [hgroups]; exact List.mem_cons_self) f hf
    · exact h.groups g' (by rw [hgroups]; exact List.mem_cons_of_mem _ hg')

lemma WellFormed.step (h : s.WellFormed) (hstep : s.step c = some t) : t.WellFormed := by
  rcases step_cases hstep with ⟨-, rfl⟩ | ⟨start, chars, hplace, hc, rfl⟩ | ⟨-, hstart⟩
  · refine ⟨fun start chars hword => ?_, h.level, h.groups⟩
    split at hword <;> cases hword
  · refine ⟨fun _ _ hword => ?_, h.level, h.groups⟩
    cases hword
    rw [List.reverse_cons]
    exact (h.word start chars hplace).snoc hc
  · exact h.settle.start hstart

end Scan

/-- The forms of a program are well formed. -/
theorem Program.wellFormed_of_ofChars {cs : List Char} {p : Program}
    (h : Program.ofChars cs = .ok p) : ∀ f ∈ p.forms, f.WellFormed := by
  obtain ⟨s, hrun, -, rfl⟩ := Program.ofChars_eq_ok.mp h
  have hs : s.WellFormed :=
    Scan.run_induction (fun _ _ _ => Scan.WellFormed.step) Scan.wellFormed_init hrun
  exact fun f hf => hs.settle.level f (List.mem_reverse.mp hf)

end BraceLisp
