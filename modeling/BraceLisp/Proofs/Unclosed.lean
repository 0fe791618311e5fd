import BraceLisp.Proofs.ErrorPosition
import Mathlib.Data.List.DropRight

/-!
When a closing bracket is reported as missing.

It is where the scan stands in a group and nothing but white space is left
(`Scan.cause_eq_unclosed_iff`). White space opens and closes nothing, so it does not matter how much
of it the scan has read. But not all white space can be read: the grammar has four blanks, and the
others stop the scan before the end. So the report is right where the scan has come to the end of
the source, and says too much where it has not (`unclosed_means_unfinished`).
-/

namespace BraceLisp

open Grammar

/-! ### White space at the end -/

namespace Text

variable {cs ds : List Char}

lemma trimEnd_eq_nil_iff : trimEnd cs = [] ↔ ∀ c ∈ cs, isWhiteSpace c = true :=
  List.rdropWhile_eq_nil_iff

lemma trimEnd_append (cs ds : List Char) :
    trimEnd (cs ++ ds) = if trimEnd ds = [] then trimEnd cs else cs ++ trimEnd ds := by
  simp only [trimEnd, List.reverse_append, List.dropWhile_append, List.isEmpty_iff,
    List.reverse_eq_nil_iff]
  split <;> simp

lemma utf8Length_trimEnd_le (cs : List Char) : utf8Length (trimEnd cs) ≤ utf8Length cs := by
  obtain ⟨rest, hrest⟩ : trimEnd cs <+: cs := List.rdropWhile_prefix _ _
  have hlength := congrArg utf8Length hrest
  rw [utf8Length_append] at hlength
  omega

end Text

/-- Nothing but white space follows a part of a text exactly if what follows it is white space. -/
lemma ParseError.atEnd_append_iff {cs ds : List Char} :
    atEnd (cs ++ ds) (Text.utf8Length cs) = true ↔ ∀ c ∈ ds, Text.isWhiteSpace c = true := by
  rw [atEnd, decide_eq_true_eq, Text.trimEnd_append, ← Text.trimEnd_eq_nil_iff]
  split
  · next hds => simp [hds, Text.utf8Length_trimEnd_le]
  · next hds =>
    have hpos := Text.utf8Length_pos hds
    rw [Text.utf8Length_append]
    simp only [hds, iff_false]
    omega

namespace Scan

variable {s t : Scan} {c d : Char} {cs : List Char} {before after : String}

lemma closing?_expected (s : Scan) : ParseError.closing? s.expected = s.openKinds.head? := by
  rw [expected, openKinds]
  cases s.groups with
  | nil =>
    dsimp only
    split <;> rfl
  | cons g gs => rfl

/-- White space opens and closes nothing. -/
lemma step_groups_of_isWhiteSpace (hc : Text.isWhiteSpace c = true) (h : s.step c = some t) :
    t.groups = s.groups := by
  have hbracket := Text.isBracket_of_isWhiteSpace hc
  rcases (step_groups h).2 with ⟨-, hgroups⟩ | ⟨-, ⟨b, hb, -⟩ | ⟨g, hg, -⟩⟩
  · exact hgroups
  · rw [hb, Text.isBracket_opening] at hbracket
    cases hbracket
  · rw [hg, Text.isBracket_closing] at hbracket
    cases hbracket

/-- In a group, a scan of white space gets stuck: at a character that is no blank, or at the end. -/
lemma exists_stuck (hcs : ∀ c ∈ cs, Text.isWhiteSpace c = true) (hs : s.groups ≠ []) :
    ∃ before after t, cs = before ++ after ∧ s.run before = .ok t ∧ t.groups = s.groups ∧
      t.Stuck after := by
  induction cs generalizing s with
  | nil => exact ⟨[], [], s, rfl, rfl, rfl, hs⟩
  | cons c cs ih =>
    obtain ⟨hc, hcs⟩ := List.forall_mem_cons.mp hcs
    cases hstep : s.step c with
    | none => exact ⟨[], c :: cs, s, rfl, rfl, rfl, hstep⟩
    | some u =>
      have hgroups := step_groups_of_isWhiteSpace hc hstep
      obtain ⟨before, after, t, rfl, hrun, ht, hstuck⟩ := ih hcs (by rwa [hgroups])
      exact ⟨c :: before, after, t, rfl, by rw [run_cons_of_step hstep, hrun], ht.trans hgroups,
        hstuck⟩

/-- A closing bracket is reported as missing in a group, where nothing but white space is left. -/
lemma cause_eq_unclosed_iff (h : s.StuckAt before after) :
    (s.parseError (before ++ after)).cause = .unclosed d ↔
      (∃ b bs, s.openKinds = b :: bs ∧ d = b.closing) ∧
        ∀ c ∈ after.toList, Text.isWhiteSpace c = true := by
  have hend : ParseError.atEnd (before ++ after).toList s.pos = true ↔
      ∀ c ∈ after.toList, Text.isWhiteSpace c = true := by
    rw [String.toList_append, h.pos, ← Text.utf8Length_toList, ParseError.atEnd_append_iff]
  rw [← hend, parseError, ParseError.ofMismatch, closing?_expected]
  cases s.openKinds with
  | nil => simp
  | cons b bs =>
    cases ParseError.atEnd (before ++ after).toList s.pos with
    | false => simp
    | true => simp [eq_comm]

end Scan

namespace Grammar

variable {text : String} {d : Char}

/-- Closing brackets of which `d` is the first, on a line of their own, make a program of the
text. -/
def Lacks (text : String) (d : Char) : Prop :=
  ∃ b ws t, d = b.closing ∧ Accepts (text ++ "\n" ++ closers (b :: ws)) t

lemma lacks_iff : Lacks text d ↔
    ∃ s, Scan.init.run text.toList = .ok s ∧ ∃ b bs, s.openKinds = b :: bs ∧ d = b.closing := by
  constructor
  · rintro ⟨b, ws, t, hd, ht⟩
    obtain ⟨s, hrun, hkinds⟩ := exists_accepts_closers_iff.mp ⟨t, ht⟩
    exact ⟨s, hrun, b, ws, hkinds, hd⟩
  · rintro ⟨s, hrun, b, bs, hkinds, hd⟩
    obtain ⟨t, ht⟩ := exists_accepts_closers_iff.mpr ⟨s, hrun, hkinds⟩
    exact ⟨b, bs, t, hd, ht⟩

end Grammar

section

variable {source : String} {limit : Nat} {d : Char}

/-- What it takes that a closing bracket is reported as missing. -/
lemma Tree.parse_unclosed_iff {e : ParseError}
    (hnesting : Nesting.tooDeep? limit source.toList = none) :
    Tree.parse source limit = .error e ∧ e.cause = .unclosed d ↔
      ∃ s before after, source = before ++ after ∧ Scan.StuckAt s before after ∧
        e = s.parseError source ∧ (∃ b bs, s.openKinds = b :: bs ∧ d = b.closing) ∧
        ∀ c ∈ after.toList, Text.isWhiteSpace c = true := by
  rw [Tree.parse_eq_error_iff hnesting]
  constructor
  · rintro ⟨⟨s, hs, rfl⟩, hcause⟩
    obtain ⟨before, after, rfl, hstuckAt⟩ := Program.ofChars_eq_error_iff.mp hs
    exact ⟨s, before, after, rfl, hstuckAt, rfl, (Scan.cause_eq_unclosed_iff hstuckAt).mp hcause⟩
  · rintro ⟨s, before, after, rfl, hstuckAt, rfl, hcause⟩
    exact ⟨⟨s, Program.ofChars_eq_error_iff.mpr ⟨before, after, rfl, hstuckAt⟩, rfl⟩,
      (Scan.cause_eq_unclosed_iff hstuckAt).mpr hcause⟩

/-- A closing bracket is reported as missing exactly if the source lacks it, white space at its end
apart. -/
lemma Tree.exists_unclosed_iff (hnesting : Nesting.tooDeep? limit source.toList = none) :
    (∃ e, Tree.parse source limit = .error e ∧ e.cause = .unclosed d) ↔
      ∃ text space, source = text ++ space ∧
        (∀ c ∈ space.toList, Text.isWhiteSpace c = true) ∧ Lacks text d := by
  constructor
  · rintro ⟨e, he⟩
    obtain ⟨s, before, after, hsource, hstuckAt, -, hkinds, hspace⟩ :=
      (Tree.parse_unclosed_iff hnesting).mp he
    exact ⟨before, after, hsource, hspace, lacks_iff.mpr ⟨s, hstuckAt.run, hkinds⟩⟩
  · rintro ⟨text, space, rfl, hspace, hlacks⟩
    obtain ⟨s, hrun, b, bs, hkinds, hd⟩ := lacks_iff.mp hlacks
    obtain ⟨before, after, t, hsplit, hbefore, ht, hstuck⟩ :=
      Scan.exists_stuck hspace (Scan.groups_ne_nil hkinds)
    have hopen : t.openKinds = b :: bs := (Scan.openKinds_congr ht).trans hkinds
    have hstuckAt : t.StuckAt (text ++ .ofList before) (.ofList after) := by
      refine ⟨?_, by rwa [String.toList_ofList]⟩
      rw [String.toList_append, String.toList_ofList, Scan.run_append_of_run hrun, hbefore]
    refine ⟨t.parseError _, (Tree.parse_unclosed_iff hnesting).mpr
      ⟨t, _, _, ?_, hstuckAt, rfl, ⟨b, bs, hopen, hd⟩, fun c hc => ?_⟩⟩
    · rw [String.append_assoc, ← String.ofList_append, ← hsplit, String.ofList_toList]
    · rw [String.toList_ofList] at hc
      exact hspace c (by rw [hsplit]; exact List.mem_append_right _ hc)

end

/-- **A missing closing bracket.** If no bracket nests too deep, then a closing bracket is reported
as missing at the end of a source exactly if the source lacks it: on a line of their own, closing
brackets of which it is the first make a program of the source. Wherever the report is placed, the
source lacks the bracket but for white space at its end. That is no difference if all of this white
space is blank for the grammar. -/
theorem unclosed_means_unfinished (source : String) (limit : Nat) (d : Char)
    (hnesting : Nesting.tooDeep? limit source.toList = none) :
    ((∃ e, Tree.parse source limit = .error e ∧ e.cause = .unclosed d ∧
        e.span.start = source.utf8ByteSize) ↔ Lacks source d) ∧
    ((∃ e, Tree.parse source limit = .error e ∧ e.cause = .unclosed d) ↔
      ∃ text space, source = text ++ space ∧
        (∀ c ∈ space.toList, Text.isWhiteSpace c = true) ∧ Lacks text d) ∧
    ((∀ space, space <:+ source.toList → (∀ c ∈ space, Text.isWhiteSpace c = true) →
        ∀ c ∈ space, isBlank c = true) →
      ((∃ e, Tree.parse source limit = .error e ∧ e.cause = .unclosed d) ↔ Lacks source d)) := by
  refine ⟨⟨?_, fun hlacks => ?_⟩, Tree.exists_unclosed_iff hnesting,
    fun hblank => ⟨?_, fun h => ?_⟩⟩
  · rintro ⟨e, he, hcause, hend⟩
    obtain ⟨s, before, after, rfl, hstuckAt, rfl, hkinds, -⟩ :=
      (Tree.parse_unclosed_iff hnesting).mp ⟨he, hcause⟩
    have hend : s.pos = (before ++ after).utf8ByteSize := hend
    rw [hstuckAt.pos, String.utf8ByteSize_append] at hend
    have hafter : after = "" := String.utf8ByteSize_eq_zero_iff.mp (by omega)
    rw [hafter, String.append_empty]
    exact lacks_iff.mpr ⟨s, hstuckAt.run, hkinds⟩
  · obtain ⟨s, hrun, b, bs, hkinds, hd⟩ := lacks_iff.mp hlacks
    have hstuckAt : s.StuckAt source "" := ⟨hrun, Scan.groups_ne_nil hkinds⟩
    obtain ⟨he, hcause⟩ := (Tree.parse_unclosed_iff hnesting).mpr
      ⟨s, source, "", String.append_empty.symm, hstuckAt, rfl, ⟨b, bs, hkinds, hd⟩, nofun⟩
    exact ⟨_, he, hcause, hstuckAt.pos⟩
  · rintro ⟨e, he⟩
    obtain ⟨s, before, after, rfl, hstuckAt, -, hkinds, hspace⟩ :=
      (Tree.parse_unclosed_iff hnesting).mp he
    have hafter : after = "" := by
      rw [← String.toList_eq_nil_iff]
      cases hcs : after.toList with
      | nil => rfl
      | cons c cs =>
        -- a blank does not stop the scan
        have hsuffix : after.toList <:+ (before ++ after).toList := by
          rw [String.toList_append]
          exact List.suffix_append _ _
        have hc : isBlank c = true :=
          hblank after.toList hsuffix hspace c (by rw [hcs]; exact List.mem_cons_self)
        obtain ⟨t, ht, -⟩ := s.step_blank hc
        have hstuck := hstuckAt.stuck
        rw [hcs] at hstuck
        exact absurd ht (by rw [show s.step c = none from hstuck]; exact nofun)
    rw [hafter, String.append_empty]
    exact lacks_iff.mpr ⟨s, hstuckAt.run, hkinds⟩
  · exact (Tree.exists_unclosed_iff hnesting).mpr ⟨source, "", String.append_empty.symm, nofun, h⟩

/-- The source ends in blanks after a comment, in two groups. -/
theorem unclosed_means_unfinished_blank :
    Nesting.tooDeep? 2 "(1 \x7bx ;)\n ".toList = none ∧
    (∃ e, Tree.parse "(1 \x7bx ;)\n " 2 = .error e ∧ e.cause = .unclosed '\x7d' ∧
      e.span.start = 10) ∧
    (∀ space, space <:+ "(1 \x7bx ;)\n ".toList → (∀ c ∈ space, Text.isWhiteSpace c = true) →
      ∀ c ∈ space, isBlank c = true) ∧
    Lacks "(1 \x7bx ;)\n " '\x7d' := by
  have hnesting : Nesting.tooDeep? 2 "(1 \x7bx ;)\n ".toList = none := by decide
  have hblank : ∀ space, space <:+ "(1 \x7bx ;)\n ".toList →
      (∀ c ∈ space, Text.isWhiteSpace c = true) → ∀ c ∈ space, isBlank c = true := by
    intro space hsuffix hspace c hc
    have hall : "(1 \x7bx ;)\n ".toList.all (fun c => !Text.isWhiteSpace c || isBlank c) := rfl
    simpa [hspace c hc] using List.all_eq_true.mp hall c (hsuffix.subset hc)
  have hlacks : Lacks "(1 \x7bx ;)\n " '\x7d' := lacks_iff.mpr
    ⟨⟨10, .gap, [.symbol ⟨4, 5⟩ "x"], [⟨.curly, 3, [.number ⟨1, 2⟩ "1"]⟩, ⟨.round, 0, []⟩]⟩,
      rfl, .curly, [.round], rfl, rfl⟩
  obtain ⟨hend, -, hanywhere⟩ := unclosed_means_unfinished _ 2 '\x7d' hnesting
  exact ⟨hnesting, hend.mpr hlacks, hblank, (hanywhere hblank).mp ((hanywhere hblank).mpr hlacks)⟩

/-- A no-break space is white space that the grammar does not know. After one in a group the closing
bracket is reported as missing, but no closing brackets make a program of the source. -/
theorem unclosed_at_no_break_space :
    Nesting.tooDeep? 256 "(1 \u00a0".toList = none ∧
    (∃ e, Tree.parse "(1 \u00a0" 256 = .error e ∧ e.cause = .unclosed ')') ∧
    ¬ Lacks "(1 \u00a0" ')' := by
  have hrun : Scan.init.run "(1 ".toList =
      .ok ⟨3, .gap, [.number ⟨1, 2⟩ "1"], [⟨.round, 0, []⟩]⟩ := rfl
  refine ⟨by decide, ⟨_, rfl, rfl⟩, ?_⟩
  rintro ⟨b, ws, t, -, ht⟩
  refine not_accepts_of_step (c := '\u00a0') hrun rfl ("\n" ++ closers (b :: ws)) t ?_
  rwa [← String.append_assoc]

end BraceLisp
