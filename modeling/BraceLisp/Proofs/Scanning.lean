import BraceLisp.Parse
import BraceLisp.Proofs.Numeral
import Mathlib.Tactic.Lemma

/-!
What a scan does with a character.

No character belongs to two classes, so each class has one equation (`start_blank` and those after
it). Read backwards they say all that a step can do (`start_cases`, `step_cases`), and what every
step keeps is kept by a run (`run_induction`).
-/

namespace BraceLisp

open Grammar

/-! ### The classes of characters -/

namespace Grammar

variable {c : Char}

lemma isSymbolChar_of_isBlank (h : isBlank c = true) : isSymbolChar c = false := by
  simp only [isBlank, Bool.or_eq_true, decide_eq_true_eq] at h
  rcases h with ((rfl | rfl) | rfl) | rfl <;> rfl

lemma isBlank_of_isSymbolChar (h : isSymbolChar c = true) : isBlank c = false := by
  rw [Bool.eq_false_iff]
  intro hblank
  rw [isSymbolChar_of_isBlank hblank] at h
  exact Bool.false_ne_true h

lemma ne_of_isSymbolChar {d : Char} (h : isSymbolChar c = true) (hd : isSymbolChar d = false) :
    c ≠ d := by
  rintro rfl
  rw [h] at hd
  exact Bool.noConfusion hd

end Grammar

namespace Bracket

@[simp] lemma isSymbolChar_opening (b : Bracket) : isSymbolChar b.opening = false := by
  cases b <;> rfl

@[simp] lemma isSymbolChar_closing (b : Bracket) : isSymbolChar b.closing = false := by
  cases b <;> rfl

@[simp] lemma isBlank_opening (b : Bracket) : isBlank b.opening = false := by cases b <;> rfl

@[simp] lemma isBlank_closing (b : Bracket) : isBlank b.closing = false := by cases b <;> rfl

lemma opening_ne_semicolon (b : Bracket) : b.opening ≠ ';' := by cases b <;> decide

lemma closing_ne_semicolon (b : Bracket) : b.closing ≠ ';' := by cases b <;> decide

@[simp] lemma utf8Size_opening (b : Bracket) : b.opening.utf8Size = 1 := by cases b <;> rfl

@[simp] lemma utf8Size_closing (b : Bracket) : b.closing.utf8Size = 1 := by cases b <;> rfl

@[simp] lemma ofOpening?_opening (b : Bracket) : ofOpening? b.opening = some b := by
  cases b <;> rfl

@[simp] lemma ofOpening?_closing (b : Bracket) : ofOpening? b.closing = none := by
  cases b <;> rfl

@[simp] lemma ofClosing?_closing (b : Bracket) : ofClosing? b.closing = some b := by
  cases b <;> rfl

variable {b : Bracket} {c : Char}

lemma eq_opening_of_ofOpening? (h : ofOpening? c = some b) : c = b.opening := by
  unfold ofOpening? at h
  split at h
  · next hc => cases h; exact hc
  · split at h
    · next hc => cases h; exact hc
    · cases h

lemma eq_closing_of_ofClosing? (h : ofClosing? c = some b) : c = b.closing := by
  unfold ofClosing? at h
  split at h
  · next hc => cases h; exact hc
  · split at h
    · next hc => cases h; exact hc
    · cases h

end Bracket

/-! ### Steps -/

namespace Scan

variable {s t : Scan} {c : Char}

@[simp] lemma settle_groups (s : Scan) : s.settle.groups = s.groups := by
  unfold settle
  split <;> rfl

@[simp] lemma settle_pos (s : Scan) : s.settle.pos = s.pos := by
  unfold settle
  split <;> rfl

lemma settle_of_gap (h : s.place = .gap) : s.settle = s := by
  rw [settle, h]

lemma settle_place (h : s.place ≠ .comment) : s.settle.place = .gap := by
  unfold settle
  split
  · rfl
  · cases hplace : s.place with
    | gap => rfl
    | comment => exact absurd hplace h
    | word start chars => next hword => exact absurd hplace (hword start chars)

lemma start_blank (s : Scan) (h : isBlank c = true) :
    s.start c = some { s with pos := s.pos + c.utf8Size } := by
  rw [start, if_pos h]

lemma start_symbolChar (s : Scan) (h : isSymbolChar c = true) :
    s.start c = some { s with pos := s.pos + c.utf8Size, place := .word s.pos [c] } := by
  have hblank : ¬ isBlank c = true := by simp [isBlank_of_isSymbolChar h]
  have hsemicolon : c ≠ ';' := ne_of_isSymbolChar h rfl
  rw [start, if_neg hblank, if_neg hsemicolon, if_pos h]

lemma start_opening (s : Scan) (b : Bracket) :
    s.start b.opening = some ⟨s.pos + 1, .gap, [], ⟨b, s.pos, s.level⟩ :: s.groups⟩ := by
  simp [start, b.opening_ne_semicolon]

lemma start_closing (s : Scan) (b : Bracket) : s.start b.closing = s.close b := by
  simp [start, b.closing_ne_semicolon]

/-- All that a character can do that does not continue a word or a comment. -/
lemma start_cases (h : s.start c = some t) :
    (isBlank c = true ∧ t = { s with pos := s.pos + c.utf8Size }) ∨
      (c = ';' ∧ t = { s with pos := s.pos + c.utf8Size, place := .comment }) ∨
      (isSymbolChar c = true ∧
        t = { s with pos := s.pos + c.utf8Size, place := .word s.pos [c] }) ∨
      (∃ b : Bracket, c = b.opening ∧
        t = ⟨s.pos + 1, .gap, [], ⟨b, s.pos, s.level⟩ :: s.groups⟩) ∨
      ∃ g gs, c = g.kind.closing ∧ s.groups = g :: gs ∧
        t = ⟨s.pos + 1, .gap,
          .group g.kind ⟨g.start, s.pos + 1⟩ s.level.reverse :: g.before, gs⟩ := by
  by_cases hblank : isBlank c = true
  · rw [start_blank s hblank] at h
    exact Or.inl ⟨hblank, (Option.some.inj h).symm⟩
  · by_cases hsemicolon : c = ';'
    · rw [start, if_neg hblank, if_pos hsemicolon] at h
      exact Or.inr (Or.inl ⟨hsemicolon, (Option.some.inj h).symm⟩)
    · by_cases hsymbol : isSymbolChar c = true
      · rw [start_symbolChar s hsymbol] at h
        exact Or.inr (Or.inr (Or.inl ⟨hsymbol, (Option.some.inj h).symm⟩))
      · refine Or.inr (Or.inr (Or.inr ?_))
        cases hopening : Bracket.ofOpening? c with
        | some b =>
          have hc := Bracket.eq_opening_of_ofOpening? hopening
          rw [hc, start_opening] at h
          exact Or.inl ⟨b, hc, (Option.some.inj h).symm⟩
        | none =>
          rw [start, if_neg hblank, if_neg hsemicolon, if_neg hsymbol, hopening] at h
          obtain ⟨b, hclosing, hclose⟩ := Option.bind_eq_some_iff.mp h
          cases hgroups : s.groups with
          | nil => simp [close, hgroups] at hclose
          | cons g gs =>
            simp only [close, hgroups] at hclose
            split at hclose
            · next hkind =>
              rw [hkind] at hclosing hclose
              exact Or.inr ⟨g, gs, Bracket.eq_closing_of_ofClosing? hclosing, rfl,
                (Option.some.inj hclose).symm⟩
            · cases hclose

/-- Outside comments, what does not continue a word completes it. -/
lemma step_of_not_symbolChar (hs : s.place ≠ .comment) (hc : isSymbolChar c = false) :
    s.step c = s.settle.start c := by
  cases hplace : s.place with
  | gap => rw [step, hplace, settle_of_gap hplace]
  | comment => exact absurd hplace hs
  | word start chars => simp [step, hplace, hc]

lemma step_cases (h : s.step c = some t) :
    (s.place = .comment ∧ t = { s with
        pos := s.pos + c.utf8Size, place := if c = '\n' then .gap else .comment }) ∨
      (∃ start chars, s.place = .word start chars ∧ isSymbolChar c = true ∧
        t = { s with pos := s.pos + c.utf8Size, place := .word start (c :: chars) }) ∨
      (s.place ≠ .comment ∧ s.settle.start c = some t) := by
  cases hplace : s.place with
  | gap =>
    rw [step, hplace] at h
    exact Or.inr (Or.inr ⟨(nomatch ·), by rw [settle_of_gap hplace]; exact h⟩)
  | comment =>
    rw [step, hplace] at h
    exact Or.inl ⟨rfl, (Option.some.inj h).symm⟩
  | word start chars =>
    by_cases hc : isSymbolChar c = true
    · simp only [step, hplace, hc, if_true] at h
      exact Or.inr (Or.inl ⟨start, chars, rfl, hc, (Option.some.inj h).symm⟩)
    · simp only [step, hplace, hc] at h
      exact Or.inr (Or.inr ⟨(nomatch ·), h⟩)

lemma run_cons_eq_ok {cs : List Char} :
    s.run (c :: cs) = .ok t ↔ ∃ u, s.step c = some u ∧ u.run cs = .ok t := by
  rw [run_cons]
  cases s.step c <;> simp

/-- What every step keeps is kept by a run. -/
lemma run_induction {I : Scan → Prop} (hstep : ∀ s c t, I s → s.step c = some t → I t)
    {cs : List Char} (hs : I s) (h : s.run cs = .ok t) : I t := by
  induction cs generalizing s with
  | nil => cases h; exact hs
  | cons c cs ih =>
    obtain ⟨u, hc, h⟩ := run_cons_eq_ok.mp h
    exact ih (hstep s c u hs hc) h

lemma run_cons_of_step (h : s.step c = some t) (cs : List Char) : s.run (c :: cs) = t.run cs := by
  rw [run_cons, h]

/-- A word is read to its end if it is not too short. -/
lemma run_of_word {start : Nat} {chars : List Char} (hs : s.place = .word start chars)
    {cs : List Char} (hcs : ∀ c ∈ cs, isSymbolChar c = true) :
    s.run cs = .ok { s with
      pos := s.pos + Text.utf8Length cs, place := .word start (cs.reverse ++ chars) } := by
  induction cs generalizing s chars with
  | nil => obtain ⟨pos, place, level, groups⟩ := s; cases hs; rfl
  | cons c cs ih =>
    have hstep : s.step c = some { s with
        pos := s.pos + c.utf8Size, place := .word start (c :: chars) } := by
      simp [step, hs, hcs c List.mem_cons_self]
    rw [run_cons_of_step hstep, ih rfl fun d hd => hcs d (List.mem_cons_of_mem _ hd)]
    simp [Nat.add_assoc]

/-- A word that begins in a gap is read as a whole. -/
lemma run_word (hs : s.place = .gap) {cs : List Char} (hcs : IsWord cs) :
    s.run cs = .ok { s with
      pos := s.pos + Text.utf8Length cs, place := .word s.pos cs.reverse } := by
  obtain ⟨hne, hchars⟩ := hcs
  cases cs with
  | nil => exact absurd rfl hne
  | cons c cs =>
    have hstep : s.step c = some { s with
        pos := s.pos + c.utf8Size, place := .word s.pos [c] } := by
      rw [step, hs]
      exact start_symbolChar s (hchars c List.mem_cons_self)
    rw [run_cons_of_step hstep, run_of_word rfl fun d hd => hchars d (List.mem_cons_of_mem _ hd)]
    simp [Nat.add_assoc]

end Scan

/-! ### Whole sources -/

/-- What a scan of a whole source has come to. -/
lemma Program.ofChars_eq_ok {cs : List Char} {p : Program} :
    Program.ofChars cs = .ok p ↔ ∃ s, Scan.init.run cs = .ok s ∧ s.groups = [] ∧
      p = ⟨s.settle.level.reverse, s.pos⟩ := by
  unfold Program.ofChars
  cases hrun : Scan.init.run cs with
  | error s => simp [Except.bind]
  | ok s =>
    cases hgroups : s.groups with
    | nil => simp [Except.bind, Scan.finish, hgroups, eq_comm]
    | cons g gs => simp [Except.bind, Scan.finish, hgroups]

lemma Program.parse_eq_ok {source : String} {limit : Nat} {p : Program} :
    Program.parse source limit = .ok p ↔
      Nesting.tooDeep? limit source.toList = none ∧ Program.ofChars source.toList = .ok p := by
  unfold Program.parse Program.ofSource
  cases Nesting.tooDeep? limit source.toList with
  | some place => simp
  | none =>
    cases Program.ofChars source.toList with
    | error s => exact ⟨(nomatch ·), fun h => nomatch h.2⟩
    | ok q => exact ⟨fun h => by cases h; exact ⟨rfl, rfl⟩, fun h => by cases h.2; rfl⟩

lemma Tree.parse_eq_ok {source : String} {limit : Nat} {t : Tree} :
    Tree.parse source limit = .ok t ↔
      ∃ p, Program.parse source limit = .ok p ∧ p.toTree = t := by
  unfold Tree.parse
  cases Program.parse source limit <;> simp [Except.map]

end BraceLisp
