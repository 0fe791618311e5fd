import BraceLisp.Proofs.Completion
import BraceLisp.Proofs.NestingLimit

/-!
Where a parse fails.

A scan that does not come to a program has read some of the source and cannot go on
(`Program.ofChars_eq_error_iff`), and the error is reported at the end of what it has read. All that
the scan gets to on the way leads there (`Scan.Reaches.of_stuck`). What it
has read is the beginning of a program, and with the next character it is not. So the position is
neither too early nor too late (`error_position_is_exact`).
-/

namespace BraceLisp

open Grammar

namespace Scan

/-- The scan cannot go on: the next character cannot be read, or none is left and a group is open.
-/
def Stuck (s : Scan) : List Char → Prop
  | [] => s.groups ≠ []
  | c :: _ => s.step c = none

/-- The scan of a source has read the text `before`, and cannot go on with the text `after`. -/
structure StuckAt (s : Scan) (before after : String) : Prop where
  run : init.run before.toList = .ok s
  stuck : s.Stuck after.toList

variable {s t : Scan} {c : Char} {cs : List Char} {before after : String}

/-- The scan reads on in a text until `rest` is left of it, and is in the state `t` then. -/
def Reaches (s : Scan) (cs : List Char) (t : Scan) (rest : List Char) : Prop :=
  ∃ before, cs = before ++ rest ∧ s.run before = .ok t

variable {u : Scan} {rest ds : List Char}

lemma Reaches.refl (s : Scan) (cs : List Char) : s.Reaches cs s cs := ⟨[], rfl, rfl⟩

lemma Reaches.step (h : s.step c = some t) (cs : List Char) : s.Reaches (c :: cs) t cs :=
  ⟨[c], rfl, run_cons_of_step h []⟩

lemma Reaches.trans (h : s.Reaches cs t ds) (h' : t.Reaches ds u rest) : s.Reaches cs u rest := by
  obtain ⟨before, rfl, hrun⟩ := h
  obtain ⟨more, rfl, hmore⟩ := h'
  exact ⟨before ++ more, (List.append_assoc ..).symm, by rw [run_append_of_run hrun, hmore]⟩

lemma Reaches.length_le (h : s.Reaches cs t rest) : rest.length ≤ cs.length := by
  obtain ⟨before, rfl, -⟩ := h
  rw [List.length_append]
  exact Nat.le_add_left _ _

lemma Reaches.pos_le (h : s.Reaches cs t rest) : s.pos ≤ t.pos := by
  obtain ⟨before, -, hrun⟩ := h
  rw [run_pos hrun]
  exact Nat.le_add_right _ _

lemma Reaches.eq_of_pos (h : s.Reaches cs t rest) (hpos : s.pos = t.pos) : t = s ∧ rest = cs := by
  obtain ⟨before, rfl, hrun⟩ := h
  cases before with
  | nil => cases hrun; exact ⟨rfl, rfl⟩
  | cons c before =>
    have hlt := Text.utf8Length_pos (List.cons_ne_nil c before)
    rw [run_pos hrun] at hpos
    omega

/-- What a scan gets to leads on to where it cannot go on. -/
lemma Reaches.of_stuck (h : s.Reaches cs t rest) (hu : s.Reaches cs u ds) (hstuck : u.Stuck ds) :
    t.Reaches rest u ds := by
  obtain ⟨before, rfl, hrun⟩ := h
  obtain ⟨all, hcs, hall⟩ := hu
  rcases List.append_eq_append_iff.mp hcs with ⟨more, rfl, rfl⟩ | ⟨more, rfl, rfl⟩
  · rw [run_append_of_run hrun] at hall
    exact ⟨more, rfl, hall⟩
  · rw [run_append_of_run hall] at hrun
    cases more with
    | nil => cases hrun; exact .refl _ _
    | cons c more =>
      obtain ⟨v, hstep, -⟩ := run_cons_eq_ok.mp hrun
      cases hstep.symm.trans hstuck

lemma StuckAt.pos (h : s.StuckAt before after) : s.pos = before.utf8ByteSize := by
  rw [run_pos h.run, ← Text.utf8Length_toList]
  exact Nat.zero_add _

lemma run_eq_error_iff : s.run cs = .error t ↔
    ∃ before c after, cs = before ++ c :: after ∧ s.run before = .ok t ∧ t.step c = none := by
  constructor
  · intro h
    induction cs generalizing s with
    | nil => cases h
    | cons c cs ih =>
      rw [run_cons] at h
      cases hc : s.step c with
      | none =>
        rw [hc] at h
        cases h
        exact ⟨[], c, cs, rfl, rfl, hc⟩
      | some u =>
        rw [hc] at h
        obtain ⟨before, d, after, rfl, hrun, hstep⟩ := ih h
        exact ⟨c :: before, d, after, rfl, by rw [run_cons_of_step hc, hrun], hstep⟩
  · rintro ⟨before, c, after, rfl, hrun, hstep⟩
    rw [run_append_of_run hrun, run_cons, hstep]

end Scan

/-- The scan of a text fails exactly where it cannot go on. -/
lemma Program.ofChars_eq_error_iff_reaches {cs : List Char} {s : Scan} :
    Program.ofChars cs = .error s ↔ ∃ rest, Scan.init.Reaches cs s rest ∧ s.Stuck rest := by
  unfold Program.ofChars
  constructor
  · intro h
    cases hrun : Scan.init.run cs with
    | error t =>
      rw [hrun] at h
      cases h
      obtain ⟨before, c, after, hcs, hbefore, hstep⟩ := Scan.run_eq_error_iff.mp hrun
      exact ⟨c :: after, ⟨before, hcs, hbefore⟩, hstep⟩
    | ok t =>
      rw [hrun, Except.bind, Scan.finish] at h
      split at h
      · cases h
      · next hgroups =>
        cases h
        exact ⟨[], ⟨cs, (List.append_nil cs).symm, hrun⟩, by simpa [Scan.Stuck] using hgroups⟩
  · rintro ⟨rest, ⟨before, rfl, hrun⟩, hstuck⟩
    cases rest with
    | nil =>
      have hgroups : s.groups ≠ [] := hstuck
      rw [List.append_nil, hrun, Except.bind, Scan.finish, if_neg (by simpa using hgroups)]
    | cons c rest =>
      rw [Scan.run_eq_error_iff.mpr ⟨_, c, rest, rfl, hrun, hstuck⟩, Except.bind]

theorem Program.ofChars_eq_error_iff {source : String} {s : Scan} :
    Program.ofChars source.toList = .error s ↔
      ∃ before after, source = before ++ after ∧ s.StuckAt before after := by
  rw [ofChars_eq_error_iff_reaches]
  constructor
  · rintro ⟨rest, ⟨before, hsource, hrun⟩, hstuck⟩
    refine ⟨.ofList before, .ofList rest, ?_, ?_, ?_⟩
    · rw [← String.ofList_append, ← hsource, String.ofList_toList]
    · rwa [String.toList_ofList]
    · rwa [String.toList_ofList]
  · rintro ⟨before, after, rfl, hrun, hstuck⟩
    exact ⟨after.toList, ⟨before.toList, String.toList_append, hrun⟩, hstuck⟩

/-- The grammar rejects what the scan fails on. -/
lemma Grammar.rejects_iff {source : String} :
    Rejects source ↔ ∃ s, Program.ofChars source.toList = .error s := by
  constructor
  · intro h
    cases hp : Program.ofChars source.toList with
    | error s => exact ⟨s, rfl⟩
    | ok p => cases h.unique (runs_program_iff_ofChars.mpr ⟨p, hp, rfl⟩)
  · rintro ⟨s, hs⟩
    refine (runs_program source.toList).resolve_left ?_
    rintro ⟨ts, fs, hts, hfs⟩
    have hp := (Program.ofChars_eq_ok_iff (p := ⟨fs, _⟩)).mpr ⟨rfl, ts, hts, hfs⟩
    rw [hs] at hp
    cases hp

/-- If no bracket nests too deep, the error of a parse is that of the scan. -/
lemma Tree.parse_eq_error_iff {source : String} {limit : Nat} {e : ParseError}
    (hnesting : Nesting.tooDeep? limit source.toList = none) :
    Tree.parse source limit = .error e ↔
      ∃ s, Program.ofChars source.toList = .error s ∧ e = s.parseError source := by
  rw [Tree.parse, Program.parse, hnesting, Program.ofSource]
  cases Program.ofChars source.toList with
  | ok p => simp [Except.map, Except.mapError]
  | error s => simp [Except.map, Except.mapError, eq_comm]

/-- **The position of an error is exact.** If no bracket nests too deep and the grammar rejects a
source, the error is reported at a place between two of its characters, or at one of its ends. What
stands before the place is the beginning of a source that the grammar accepts, and with the
character after the place it is not. -/
theorem error_position_is_exact (source : String) (limit : Nat)
    (hnesting : Nesting.tooDeep? limit source.toList = none) (hrejects : Rejects source) :
    ∃ e before after, Tree.parse source limit = .error e ∧ source = before ++ after ∧
      e.span = ⟨before.utf8ByteSize, before.utf8ByteSize⟩ ∧
      (∃ more t, Accepts (before ++ more) t) ∧
      ∀ c ∈ after.toList.head?, ∀ more t, ¬ Accepts (before ++ String.singleton c ++ more) t := by
  obtain ⟨s, hs⟩ := rejects_iff.mp hrejects
  obtain ⟨before, after, hsource, hstuckAt⟩ := Program.ofChars_eq_error_iff.mp hs
  refine ⟨s.parseError source, before, after, ?_, hsource, ?_, ?_, ?_⟩
  · exact (Tree.parse_eq_error_iff hnesting).mpr ⟨s, hs, rfl⟩
  · rw [← hstuckAt.pos]
    rfl
  · exact exists_accepts_append hstuckAt.run
  · intro c hc
    obtain ⟨rest, hafter⟩ := List.head?_eq_some_iff.mp hc
    have hstuck := hstuckAt.stuck
    rw [hafter] at hstuck
    exact not_accepts_of_step hstuckAt.run hstuck

/-- Two groups are open, and a letter of two bytes that belongs to no token follows. -/
theorem error_position_is_exact_letter :
    Nesting.tooDeep? 2 "\x7b(1 ä)".toList = none ∧ Rejects "\x7b(1 ä)" ∧
      ∃ e before after, Tree.parse "\x7b(1 ä)" 2 = .error e ∧ "\x7b(1 ä)" = before ++ after ∧
        e.span = ⟨before.utf8ByteSize, before.utf8ByteSize⟩ ∧
        (∃ more t, Accepts (before ++ more) t) ∧
        ∀ c ∈ after.toList.head?, ∀ more t, ¬ Accepts (before ++ String.singleton c ++ more) t := by
  have hnesting : Nesting.tooDeep? 2 "\x7b(1 ä)".toList = none := by decide
  have hrejects : Rejects "\x7b(1 ä)" := rejects_iff.mpr
    ⟨⟨4, .gap, [.number ⟨2, 3⟩ "1"], [⟨.round, 1, []⟩, ⟨.curly, 0, []⟩]⟩, rfl⟩
  exact ⟨hnesting, hrejects, error_position_is_exact _ 2 hnesting hrejects⟩

example : Tree.parse "\x7b(1 ä)" 2 =
    .error ⟨.unexpected "expression or ')'" "'ä'", "\x7b(1 ä)", ⟨4, 4⟩⟩ := rfl

end BraceLisp
