import BraceLisp.Proofs.Attempts

/-!
Where the grammar fails furthest.

The error of a parse is that of the scan, but it is about the grammar. The scan gets to every
attempt at a program, and what it gets to leads to where it cannot go on. So no attempt is made
beyond this place, and the attempts that are made there are made in the groups that are open then
(`Attempt.At.mem_expected`). Conversely, where the end of a group or of the program is not found, no
expression is found either. The scan cannot go on there, or it opens a group that fails in turn
(`Scan.StandsAt.exists_stuck`). So the rules that an error names are those that fail furthest
(`error_is_furthest_failure`).
-/

namespace BraceLisp

open Grammar
open Relation (ReflTransGen)

/-- A rule that errors name. An opening bracket goes by the name of its group, and an expression by
those of all that it can be. -/
def Grammar.Rule.isReported : Rule → Bool
  | .endOfInput => true
  | .number => true
  | .symbol => true
  | .closing _ => true
  | .group _ => true
  | _ => false

/-- What stands between the ends of a group and of a program, and nothing after it. -/
def Peg.content : Peg := .seq gap (.seq (many (.rule .expression)) gap)

/-- What ends the innermost of the open groups, or the program if no group is open. -/
def Grammar.ending : List Bracket → Rule
  | [] => .endOfInput
  | b :: _ => .closing b

/-- What an expression can be. -/
def Grammar.expressions : List Rule := [.number, .symbol, .group .round, .group .curly]

namespace Grammar

variable {r : Rule}

lemma isReported_ending (ks : List Bracket) : (ending ks).isReported = true := by
  cases ks <;> rfl

lemma isReported_of_mem_expressions :
    ∀ r ∈ expressions, r.isReported = true ∧ r ≠ .endOfInput := by
  decide

lemma mem_expressions (hr : r.isReported = true) (hinner : r.isInner = true) :
    r ∈ expressions := by
  cases r with
  | number => simp [expressions]
  | symbol => simp [expressions]
  | group b => cases b <;> simp [expressions]
  | _ => contradiction

end Grammar

lemma Peg.takes_content (ks : List Bracket) : content.Takes ks ks :=
  .seq (takes_gap ks) rfl (.seq (takes_expressions ks) rfl (takes_gap ks))

/-! ### What fails -/

namespace Runs

variable {f : Peg} {pos : Nat} {cs : List Char} {b : Bracket} {r : Reading} {o : Option Reading}

lemma gap_reads (h : Runs .gap pos cs o) : ∃ r, o = some r ∧ Text.Stops beginsGap r.rest := by
  obtain ⟨g, rest, rfl, hg, hrest⟩ := exists_gap cs
  exact ⟨_, h.unique (gap pos hg hrest), hrest⟩

lemma gap_stops (h : Runs .gap pos cs (some r)) : Text.Stops beginsGap r.rest := by
  obtain ⟨q, hq, hrest⟩ := h.gap_reads
  cases hq
  exact hrest

/-- No word begins where an expression fails. -/
lemma stops_of_expression (h : Runs (.rule .expression) pos cs none) :
    Text.Stops isSymbolChar cs := by
  obtain ⟨w, rest, rfl, hw, hrest⟩ := Text.exists_run isSymbolChar cs
  by_cases hne : w = []
  · subst hne
    exact hrest
  · cases h.unique (expression_word ⟨hne, hw⟩ hrest)

lemma content_stops (h : Runs .content pos cs (some r)) : Text.Stops beginsGap r.rest := by
  cases h with
  | seq _ h =>
    cases h with
    | seq _ hlast => exact hlast.gap_stops

/-- Only the end can fail of what stands inside of a group or of a program. -/
lemma inside_fails (h : Runs (.inside f) pos cs none) :
    ∃ r, Runs .content pos cs (some r) ∧ Runs f r.pos r.rest none := by
  cases h with
  | seq_first h =>
    obtain ⟨r, hr, -⟩ := h.gap_reads
    cases hr
  | seq_second hfirst h =>
    cases h with
    | seq_first h =>
      cases h with
      | choice_second _ h => cases h
    | seq_second hall h =>
      cases h with
      | seq_first h =>
        obtain ⟨r, hr, -⟩ := h.gap_reads
        cases hr
      | seq_second hlast hf => exact ⟨_, .seq hfirst (.seq hall hlast), hf⟩

/-- A group fails only after its opening bracket, where that stands. -/
lemma group_inside_fails (h : Runs (.rule (.group b)) pos (b.opening :: cs) none) :
    Runs (.inside (.rule (.closing b))) (pos + 1) cs none := by
  cases h with
  | rule_fail h =>
    cases h with
    | seq_first h => cases h.unique (opening pos b cs)
    | seq_second h hinside =>
      cases h.unique (opening pos b cs)
      exact hinside

end Runs

/-! ### What fails within an attempt -/

namespace Attempt

/-- Within the attempt, the rule is tried at the offset `pos` and fails. -/
def Fails (a : Attempt) (r : Rule) (pos : Nat) : Prop :=
  ∃ rest n, ReflTransGen Tries a ⟨.rule r, pos, rest, n⟩ ∧ Runs (.rule r) pos rest none

variable {a b : Attempt} {r : Rule} {e f : Peg} {pos : Nat} {cs : List Char}

lemma Fails.of_tries (h : ReflTransGen Tries a b) (hb : b.Fails r pos) : a.Fails r pos := by
  obtain ⟨rest, n, htries, hfails⟩ := hb
  exact ⟨rest, n, h.trans htries, hfails⟩

/-- Where an expression fails, all that it can be has been tried. -/
lemma tries_expression (h : Runs (.rule .expression) pos cs none) (n : Nat) :
    ∀ r ∈ expressions, ReflTransGen Tries ⟨.rule .expression, pos, cs, n⟩ ⟨.rule r, pos, cs, n⟩ ∧
      Runs (.rule r) pos cs none := by
  cases h with
  | rule_fail h =>
    cases h with
    | choice_second hnumber h =>
      cases h with
      | choice_second hsymbol h =>
        cases h with
        | choice_second hround hcurly =>
          have hbody : ReflTransGen Tries ⟨.rule .expression, pos, cs, n⟩
              ⟨Rule.expression.body, pos, cs, n⟩ := .single .rule
          have hwords := hbody.tail (.choice_second hnumber)
          have hgroups := hwords.tail (.choice_second hsymbol)
          simp only [expressions, List.forall_mem_cons]
          exact ⟨⟨hbody.tail .choice_first, hnumber⟩, ⟨hwords.tail .choice_first, hsymbol⟩,
            ⟨hgroups.tail .choice_first, hround⟩, ⟨hgroups.tail (.choice_second hround), hcurly⟩,
            nofun⟩

lemma Fails.of_expression (h : a.Fails .expression pos) : ∀ r ∈ expressions, a.Fails r pos := by
  obtain ⟨rest, n, htries, hfails⟩ := h
  intro r hr
  obtain ⟨htries', hfails'⟩ := tries_expression hfails n r hr
  exact ⟨rest, n, htries.trans htries', hfails'⟩

/-- A repetition goes on until its expression fails. -/
lemma tries_star {r : Reading} (h : Runs (.star e) pos cs (some r)) (n : Nat) :
    ReflTransGen Tries ⟨.star e, pos, cs, n⟩ ⟨.star e, r.pos, r.rest, n⟩ ∧
      Runs e r.pos r.rest none := by
  generalize hx : Peg.star e = x at h
  generalize ho : some r = o at h
  induction h generalizing r with
  | @star_step _ _ _ r₀ q he _ _ ih =>
    cases hx
    cases ho
    obtain ⟨htries, hfails⟩ := ih rfl rfl
    exact ⟨.head (.star_again he) htries, hfails⟩
  | star_stop he =>
    cases hx
    cases ho
    exact ⟨.refl, he⟩
  | _ => cases hx

/-- After a gap, expressions are tried until one fails that follows a gap. -/
lemma tries_many {all last : Reading} (hall : Runs (.many (.rule .expression)) pos cs (some all))
    (hcs : Text.Stops beginsGap cs) (hlast : Runs .gap all.pos all.rest (some last)) (n : Nat) :
    ReflTransGen Tries ⟨.many (.rule .expression), pos, cs, n⟩
        ⟨.rule .expression, last.pos, last.rest, n⟩ ∧
      Runs (.rule .expression) last.pos last.rest none := by
  cases hall with
  | choice_first h =>
    cases h with
    | seq he hs =>
      obtain ⟨htries, hfails⟩ := tries_star hs n
      have hitems := ((ReflTransGen.single (Tries.choice_first (f := .empty))).tail
        (.seq_second he)).trans htries
      cases hfails with
      | seq_first hgap => cases hlast.unique hgap
      | seq_second hgap hfails =>
        cases hlast.unique hgap
        exact ⟨(hitems.tail .star_first).tail (.seq_second hgap), hfails⟩
  | choice_second h hempty =>
    cases hempty
    cases h with
    | seq_first hfails =>
      cases hlast.unique (Runs.gap pos .nil hcs)
      exact ⟨(ReflTransGen.single .choice_first).tail .seq_first, hfails⟩
    | seq_second _ hs => cases hs

/-- What stands inside of a group or of a program ends where no expression is found. -/
lemma tries_inside {r : Reading} (h : Runs .content pos cs (some r)) (n : Nat) :
    (ReflTransGen Tries ⟨.inside f, pos, cs, n⟩ ⟨.rule .expression, r.pos, r.rest, n⟩ ∧
      Runs (.rule .expression) r.pos r.rest none) ∧
    ReflTransGen Tries ⟨.inside f, pos, cs, n⟩ ⟨f, r.pos, r.rest, n⟩ := by
  cases h with
  | @seq _ _ _ _ first _ hfirst h =>
    cases h with
    | @seq _ _ _ _ all last hall hlast =>
      have hmany : ReflTransGen Tries ⟨.inside f, pos, cs, n⟩
          ⟨.seq (.many (.rule .expression)) (.seq .gap f), first.pos, first.rest, n⟩ :=
        .single (.seq_second hfirst)
      have hend : ReflTransGen Tries ⟨.inside f, pos, cs, n⟩ ⟨f, last.pos, last.rest, n⟩ :=
        (hmany.tail (.seq_second hall)).tail (.seq_second hlast)
      obtain ⟨htries, hfails⟩ := tries_many hall hfirst.gap_stops hlast n
      exact ⟨⟨(hmany.tail .seq_first).trans htries, hfails⟩, hend⟩

lemma tries_group (pos : Nat) (b : Bracket) (cs : List Char) (n : Nat) :
    ReflTransGen Tries ⟨.rule (.group b), pos, b.opening :: cs, n⟩
      ⟨.inside (.rule (.closing b)), pos + 1, cs, n + 1⟩ :=
  (ReflTransGen.single .rule).tail (.seq_second (Runs.opening pos b cs))

end Attempt

/-! ### Where the scan cannot go on -/

namespace Scan

variable {s t : Scan} {r : Rule} {pos : Nat} {ks : List Bracket} {cs rest : List Char}

lemma mem_expected_iff : r ∈ s.expected ↔
    r ∈ expressions ∨ r = ending s.openKinds ∧ (r = .endOfInput → s.pos ≠ 0) := by
  rw [expected, openKinds]
  cases s.groups with
  | nil =>
    by_cases hpos : s.pos = 0
    · simp [ending, expressions, hpos]
    · rw [if_neg hpos, List.mem_cons, or_comm]
      simp [ending, expressions, hpos]
  | cons g gs => grind [ending, expressions]

/-- Where neither an expression is found nor an end, the scan can only open a group. -/
lemma StandsAt.stuck_or_opening (hs : s.StandsAt pos ks rest) (hrest : Text.Stops beginsGap rest)
    (hexpression : Runs (.rule .expression) pos rest none)
    (hend : Runs (.rule (ending ks)) pos rest none) :
    s.Stuck rest ∨ ∃ (b : Bracket) (cs : List Char), rest = b.opening :: cs := by
  have hkinds := hs.openKinds
  rw [Scan.openKinds] at hkinds
  cases rest with
  | nil =>
    refine Or.inl fun hgroups => ?_
    rw [hgroups] at hkinds
    subst hkinds
    cases hend.unique (Runs.rule (r := .endOfInput) .stop)
  | cons c cs =>
    obtain ⟨hblank, hsemicolon⟩ := Bool.or_eq_false_iff.mp (Text.stops_cons.mp hrest)
    have hword := Text.stops_cons.mp (Runs.stops_of_expression hexpression)
    have hplace : s.place ≠ .comment := hs.place_ne (by rintro rfl; cases hblank)
    rcases hstep : s.step c with _ | t
    · exact Or.inl hstep
    · rw [step_of_not_symbolChar hplace hword] at hstep
      rcases start_cases hstep with ⟨hc, -⟩ | ⟨rfl, -⟩ | ⟨hc, -⟩ | ⟨b, rfl, -⟩ |
        ⟨g, gs, rfl, hgroups, -⟩
      · exact Bool.noConfusion (hc.symm.trans hblank)
      · cases hsemicolon
      · exact Bool.noConfusion (hc.symm.trans hword)
      · exact Or.inr ⟨b, cs, rfl⟩
      · rw [settle_groups] at hgroups
        rw [hgroups] at hkinds
        subst hkinds
        cases hend.unique (Runs.closing pos g.kind cs)

/-- Where what is open does not end, the scan gets to a place where it cannot go on, and where
neither an expression is found nor the end of what is open then. -/
lemma StandsAt.exists_stuck (hs : s.StandsAt pos ks cs)
    (h : Runs (.inside (.rule (ending ks))) pos cs none) :
    ∃ t rest, s.Reaches cs t rest ∧ t.Stuck rest ∧ ∀ r, r = .expression ∨ r = ending t.openKinds →
      Attempt.Fails ⟨.inside (.rule (ending ks)), pos, cs, ks.length⟩ r t.pos := by
  induction hn : cs.length using Nat.strongRecOn generalizing s pos ks cs with
  | ind n ih =>
    subst hn
    obtain ⟨r, hcontent, hend⟩ := h.inside_fails
    obtain ⟨t, hreaches, ht⟩ := hcontent.reaches (Peg.takes_content ks) hs r rfl
    obtain ⟨⟨htries, hexpression⟩, htries'⟩ := Attempt.tries_inside hcontent ks.length
    rcases ht.stuck_or_opening hcontent.content_stops hexpression hend with hstuck | ⟨b, ds, hds⟩
    · refine ⟨t, r.rest, hreaches, hstuck, ?_⟩
      rw [ht.pos, ht.openKinds]
      rintro r (rfl | rfl)
      · exact ⟨_, _, htries, hexpression⟩
      · exact ⟨_, _, htries', hend⟩
    · -- the group that is opened here fails, and what stands inside of it does
      have hlt := hreaches.length_le
      rw [hds] at ht hreaches htries hexpression hlt
      obtain ⟨hgroup, hfails⟩ := Attempt.tries_expression hexpression ks.length (.group b)
        (by cases b <;> simp [expressions])
      obtain ⟨u, hstep, hu⟩ := ht.opening
      obtain ⟨v, rest, hreaches', hstuck, hv⟩ := ih ds.length hlt hu hfails.group_inside_fails rfl
      refine ⟨v, rest, hreaches.trans ((Reaches.step hstep ds).trans hreaches'), hstuck, ?_⟩
      intro r hr
      exact (hv r hr).of_tries (htries.trans (hgroup.trans (Attempt.tries_group ..)))

end Scan

/-! ### The error of a parse -/

namespace Attempt

variable {a : Attempt} {s : Scan} {r : Rule} {pos n : Nat} {cs rest : List Char}

/-- No attempt is made beyond the place where the scan cannot go on. -/
lemma pos_le_of_stuck (ha : ReflTransGen Tries (program cs) a)
    (hs : Scan.init.Reaches cs s rest) (hstuck : s.Stuck rest) : a.pos ≤ s.pos := by
  obtain ⟨t, ht, hat⟩ := exists_scan ha
  rw [← hat.pos]
  exact (ht.of_stuck hs hstuck).pos_le

lemma at_of_stuck (ha : ReflTransGen Tries (program cs) a) (hs : Scan.init.Reaches cs s rest)
    (hstuck : s.Stuck rest) (hpos : a.pos = s.pos) : At s a := by
  obtain ⟨t, ht, hat⟩ := exists_scan ha
  obtain ⟨rfl, -⟩ := (ht.of_stuck hs hstuck).eq_of_pos (hat.pos.trans hpos)
  exact hat

lemma At.mem_expected (h : At s ⟨.rule r, pos, cs, n⟩) (hr : r.isReported = true)
    (hend : r = .endOfInput → s.pos ≠ 0) : r ∈ s.expected := by
  rw [Scan.mem_expected_iff]
  cases h with
  | inComment _ he => cases he
  | takes he hs =>
    rw [hs.openKinds]
    cases he with
    | opening => cases hr
    | closing => exact Or.inr ⟨rfl, hend⟩
    | endOfInput => exact Or.inr ⟨rfl, hend⟩
    | program => cases hr
    | inner hinner => exact Or.inl (mem_expressions hr hinner)

/-- A program fails in what stands inside of it. -/
lemma program_fails (h : Runs (.rule .program) 0 cs none) :
    ReflTransGen Tries (program cs) ⟨.inside (.rule .endOfInput), 0, cs, 0⟩ ∧
      Runs (.inside (.rule .endOfInput)) 0 cs none := by
  refine ⟨(ReflTransGen.single .rule).tail (.seq_second .start), ?_⟩
  cases h with
  | rule_fail h =>
    cases h with
    | seq_first h => cases h.unique .start
    | seq_second h hinside =>
      cases h.unique .start
      exact hinside

end Attempt

/-- A scan that cannot go on stands where the attempts at the program fail furthest. -/
theorem Scan.stops_at_furthest_failure {source : String} {s : Scan}
    (h : Program.ofChars source.toList = .error s) :
    (∀ a, ReflTransGen Attempt.Tries (.program source.toList) a → a.pos ≤ s.pos) ∧
    ∀ r, r ∈ s.expected ↔ r.isReported = true ∧ (r = .endOfInput → s.pos ≠ 0) ∧
      (Attempt.program source.toList).Fails r s.pos := by
  obtain ⟨htries, hinside⟩ := Attempt.program_fails (rejects_iff.mpr ⟨s, h⟩)
  obtain ⟨t, rest, ht, hstuck, hfails⟩ := (standsAt_init source.toList).exists_stuck hinside
  cases h.symm.trans (Program.ofChars_eq_error_iff_reaches.mpr ⟨rest, ht, hstuck⟩)
  refine ⟨fun a ha => Attempt.pos_le_of_stuck ha ht hstuck, fun r => ⟨fun hr => ?_, ?_⟩⟩
  · rcases mem_expected_iff.mp hr with hr | ⟨rfl, hend⟩
    · obtain ⟨hreported, hne⟩ := isReported_of_mem_expressions r hr
      have hexpression := hfails .expression (Or.inl rfl)
      exact ⟨hreported, fun hend => absurd hend hne,
        (hexpression.of_expression r hr).of_tries htries⟩
    · exact ⟨isReported_ending _, hend, (hfails _ (Or.inr rfl)).of_tries htries⟩
  · rintro ⟨hreported, hend, rest', n, ha, -⟩
    exact (Attempt.at_of_stuck ha ht hstuck rfl).mem_expected hreported hend

/-- **An error tells what failed furthest.** If no bracket nests too deep and the grammar rejects a
source, the grammar tries nothing beyond the position of the error. What the error expects is the
rules that errors name and that are tried at this position and fail there. At the very beginning of
a source only an expression is expected, and not the end of the input. -/
theorem error_is_furthest_failure {source : String} {limit : Nat}
    (hnesting : Nesting.tooDeep? limit source.toList = none) (hrejects : Rejects source) :
    ∃ pos expected,
      Tree.parse source limit = .error (.ofMismatch source ⟨pos, pos⟩ expected []) ∧
      (∀ a, ReflTransGen Attempt.Tries (.program source.toList) a → a.pos ≤ pos) ∧
      ∀ r, r ∈ expected ↔ r.isReported = true ∧ (r = .endOfInput → pos ≠ 0) ∧
        (Attempt.program source.toList).Fails r pos := by
  obtain ⟨s, hs⟩ := rejects_iff.mp hrejects
  exact ⟨s.pos, s.expected, (Tree.parse_eq_error_iff hnesting).mpr ⟨s, hs, rfl⟩,
    Scan.stops_at_furthest_failure hs⟩

example : Tree.parse "\x7b(1 ä)" 2 = .error (.ofMismatch "\x7b(1 ä)" ⟨4, 4⟩
    [.number, .symbol, .closing .round, .group .round, .group .curly] []) := rfl

end BraceLisp
