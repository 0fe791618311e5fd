import BraceLisp.Proofs.OpenBrackets

/-!
Closing what is open.

Only brackets outside comments open and close groups (`Scan.step_groups`). Whatever a scan has read
is the beginning of a program: a line feed ends the word or the comment that is being read, and then
closing brackets make a program of it if they are those of the open groups, the innermost first, and
only then (`exists_accepts_closers_iff`). No program begins with what a scan cannot read
(`not_accepts_of_step`).
-/

namespace BraceLisp

open Grammar

/-! ### Brackets and comments -/

namespace Text

def isBracket (c : Char) : Bool := Nesting.isOpening c || Nesting.isClosing c

/-- Whether a comment goes on after a character, if the character stands in one or not. -/
def commentAfter (inComment : Bool) (c : Char) : Bool :=
  if inComment then c != '\n' else c == ';'

variable {c : Char}

lemma commentAfter_of_ne (hc : c ≠ ';') : commentAfter false c = false := by
  simp [commentAfter, hc]

@[simp] lemma isBracket_opening (b : Bracket) : isBracket b.opening = true := by cases b <;> rfl

@[simp] lemma isBracket_closing (b : Bracket) : isBracket b.closing = true := by cases b <;> rfl

lemma exists_of_isBracket (h : isBracket c = true) :
    ∃ b : Bracket, c = b.opening ∨ c = b.closing := by
  rcases Bool.or_eq_true_iff.mp h with h | h
  · obtain ⟨b, hb⟩ := Option.isSome_iff_exists.mp h
    exact ⟨b, Or.inl (Bracket.eq_opening_of_ofOpening? hb)⟩
  · obtain ⟨b, hb⟩ := Option.isSome_iff_exists.mp h
    exact ⟨b, Or.inr (Bracket.eq_closing_of_ofClosing? hb)⟩

/-- A class of characters that has no bracket in it. -/
lemma isBracket_of_class {p : Char → Bool} (hopening : ∀ b : Bracket, p b.opening = false)
    (hclosing : ∀ b : Bracket, p b.closing = false) (hc : p c = true) : isBracket c = false := by
  rw [Bool.eq_false_iff]
  intro h
  obtain ⟨b, rfl | rfl⟩ := exists_of_isBracket h
  · exact Bool.noConfusion (hc.symm.trans (hopening b))
  · exact Bool.noConfusion (hc.symm.trans (hclosing b))

lemma isBracket_of_isWhiteSpace (hc : isWhiteSpace c = true) : isBracket c = false :=
  isBracket_of_class (by rintro (_ | _) <;> decide) (by rintro (_ | _) <;> decide) hc

end Text

namespace Scan

variable {s t : Scan} {c : Char} {cs : List Char} {ws : List Bracket}

def inComment (s : Scan) : Bool :=
  match s.place with
  | .comment => true
  | _ => false

lemma inComment_eq_false_iff : s.inComment = false ↔ s.place ≠ .comment := by
  unfold inComment
  split <;> simp_all

/-- All that a step does to the open groups, and to the comment. -/
lemma step_groups (h : s.step c = some t) :
    t.inComment = Text.commentAfter s.inComment c ∧
      ((s.inComment = true ∨ Text.isBracket c = false) ∧ t.groups = s.groups ∨
        s.inComment = false ∧
          ((∃ b, c = b.opening ∧ t.groups = ⟨b, s.pos, s.settle.level⟩ :: s.groups) ∨
            ∃ g, c = g.kind.closing ∧ s.groups = g :: t.groups)) := by
  rcases step_cases h with ⟨hplace, rfl⟩ | ⟨start, chars, hplace, hc, rfl⟩ | ⟨hplace, hstart⟩
  · have hs : s.inComment = true := by rw [inComment, hplace]
    refine ⟨?_, Or.inl ⟨Or.inl hs, rfl⟩⟩
    rw [hs]
    by_cases hc : c = '\n' <;> simp [inComment, Text.commentAfter, hc]
  · have hs : s.inComment = false := by rw [inComment, hplace]
    rw [hs]
    refine ⟨(Text.commentAfter_of_ne (ne_of_isSymbolChar hc rfl)).symm, Or.inl ⟨Or.inr ?_, rfl⟩⟩
    exact Text.isBracket_of_class Bracket.isSymbolChar_opening Bracket.isSymbolChar_closing hc
  · have hs : s.inComment = false := inComment_eq_false_iff.mpr hplace
    rw [hs]
    rcases start_cases hstart with ⟨hc, rfl⟩ | ⟨rfl, rfl⟩ | ⟨hc, rfl⟩ | ⟨b, rfl, rfl⟩ |
      ⟨g, gs, rfl, hgroups, rfl⟩
    · have hsettle : s.settle.inComment = false := by rw [inComment, settle_place hplace]
      have hsemicolon : c ≠ ';' := by rintro rfl; cases hc
      refine ⟨hsettle.trans (Text.commentAfter_of_ne hsemicolon).symm, Or.inl ⟨Or.inr ?_, ?_⟩⟩
      · exact Text.isBracket_of_class Bracket.isBlank_opening Bracket.isBlank_closing hc
      · exact s.settle_groups
    · exact ⟨rfl, Or.inl ⟨Or.inr rfl, s.settle_groups⟩⟩
    · refine ⟨(Text.commentAfter_of_ne (ne_of_isSymbolChar hc rfl)).symm,
        Or.inl ⟨Or.inr ?_, s.settle_groups⟩⟩
      exact Text.isBracket_of_class Bracket.isSymbolChar_opening Bracket.isSymbolChar_closing hc
    · refine ⟨(Text.commentAfter_of_ne b.opening_ne_semicolon).symm, Or.inr ⟨rfl, Or.inl ?_⟩⟩
      exact ⟨b, rfl, by rw [settle_pos, settle_groups]⟩
    · refine ⟨(Text.commentAfter_of_ne g.kind.closing_ne_semicolon).symm, Or.inr ⟨rfl, Or.inr ?_⟩⟩
      exact ⟨g, rfl, by rw [← settle_groups, hgroups]⟩

/-! ### Closing the open groups -/

/-- The kinds of the open groups, the innermost first. -/
def openKinds (s : Scan) : List Bracket := s.groups.map OpenGroup.kind

lemma openKinds_congr (h : t.groups = s.groups) : t.openKinds = s.openKinds :=
  congrArg (List.map OpenGroup.kind) h

lemma length_openKinds (s : Scan) : s.openKinds.length = s.groups.length := List.length_map _

lemma groups_ne_nil {b : Bracket} (h : s.openKinds = b :: ws) : s.groups ≠ [] := by
  intro hgroups
  simp [openKinds, hgroups] at h

lemma run_append_of_run (h : s.run cs = .ok t) (ds : List Char) : s.run (cs ++ ds) = t.run ds := by
  rw [run_append, h, Except.bind]

/-- A blank can be read anywhere. What follows it stands in a gap, if a comment has not begun or
ends with it. -/
lemma step_blank (s : Scan) (hc : isBlank c = true) :
    ∃ t, s.step c = some t ∧ t.groups = s.groups ∧
      (s.place ≠ .comment ∨ c = '\n' → t.place = .gap) := by
  by_cases hplace : s.place = .comment
  · refine ⟨{ s with pos := s.pos + c.utf8Size, place := if c = '\n' then .gap else .comment },
      by rw [step, hplace], rfl, fun h => ?_⟩
    exact if_pos (h.resolve_left (not_not_intro hplace))
  · refine ⟨{ s.settle with pos := s.settle.pos + c.utf8Size }, ?_, s.settle_groups,
      fun _ => settle_place hplace⟩
    rw [step_of_not_symbolChar hplace (isSymbolChar_of_isBlank hc), start_blank s.settle hc]

/-- Closing brackets close all groups exactly if they are those of the open groups. -/
lemma run_closers_iff (hs : s.place = .gap) :
    (∃ t, s.run (ws.map Bracket.closing) = .ok t ∧ t.groups = []) ↔ s.openKinds = ws := by
  induction ws generalizing s with
  | nil => simp [openKinds]
  | cons b ws ih =>
    have hstep : s.step b.closing = s.close b := by rw [step, hs]; exact start_closing s b
    rw [List.map_cons, run_cons, hstep, openKinds]
    cases hgroups : s.groups with
    | nil => simp [close, hgroups]
    | cons g gs =>
      by_cases hkind : b = g.kind
      · rw [close, hgroups, List.map_cons, hkind, List.cons.injEq, and_iff_right rfl]
        simp only [if_true]
        exact ih rfl
      · simp [close, hgroups, hkind, Ne.symm hkind]

end Scan

namespace Grammar

variable {text : String} {s : Scan} {c : Char}

lemma exists_accepts_iff {source : String} :
    (∃ t, Accepts source t) ↔ ∃ s, Scan.init.run source.toList = .ok s ∧ s.groups = [] := by
  constructor
  · rintro ⟨t, ht⟩
    obtain ⟨p, hp, -⟩ := accepts_iff.mp ht
    obtain ⟨s, hrun, hgroups, -⟩ := Program.ofChars_eq_ok.mp hp
    exact ⟨s, hrun, hgroups⟩
  · rintro ⟨s, hrun, hgroups⟩
    exact ⟨_, accepts_iff.mpr ⟨_, Program.ofChars_eq_ok.mpr ⟨s, hrun, hgroups, rfl⟩, rfl⟩⟩

/-- Closing brackets on a line of their own make a program of a text exactly if they close the
groups that are open at its end. -/
theorem exists_accepts_closers_iff {ws : List Bracket} :
    (∃ t, Accepts (text ++ "\n" ++ closers ws) t) ↔
      ∃ s, Scan.init.run text.toList = .ok s ∧ s.openKinds = ws := by
  have hsource : (text ++ "\n" ++ closers ws).toList =
      text.toList ++ '\n' :: ws.map Bracket.closing := by
    simp [closers]
  rw [exists_accepts_iff, hsource, Scan.run_append]
  cases hrun : Scan.init.run text.toList with
  | error s => simp [Except.bind]
  | ok s =>
    obtain ⟨t, hstep, hgroups, hplace⟩ := s.step_blank (c := '\n') rfl
    rw [Except.bind, Scan.run_cons_of_step hstep, Scan.run_closers_iff (hplace (Or.inr rfl)),
      Scan.openKinds_congr hgroups]
    simp

/-- What a scan has read is the beginning of a program. -/
lemma exists_accepts_append (h : Scan.init.run text.toList = .ok s) :
    ∃ more t, Accepts (text ++ more) t := by
  obtain ⟨t, ht⟩ := exists_accepts_closers_iff.mpr ⟨s, h, rfl⟩
  exact ⟨"\n" ++ closers s.openKinds, t, by rwa [← String.append_assoc]⟩

/-- What a scan cannot read is not. -/
lemma not_accepts_of_step (h : Scan.init.run text.toList = .ok s) (hstep : s.step c = none)
    (more : String) (t : Tree) : ¬ Accepts (text ++ String.singleton c ++ more) t := by
  intro ht
  obtain ⟨u, hu, -⟩ := exists_accepts_iff.mp ⟨t, ht⟩
  have hsource : (text ++ String.singleton c ++ more).toList =
      text.toList ++ c :: more.toList := by simp
  rw [hsource, Scan.run_append_of_run h, Scan.run_cons, hstep] at hu
  cases hu

end Grammar

end BraceLisp
