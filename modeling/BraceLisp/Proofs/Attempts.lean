import BraceLisp.Proofs.ErrorPosition
import Mathlib.Logic.Relation

/-!
Where expressions are tried, and how many groups are open there.

To try an expression is to try others within it (`Attempt.Tries`), and those that are tried before
the grammar fails count as well as those that read something. The scan goes through the text only
once. But it gets to every place where an expression is tried, and has the same groups open there
(`Attempt.exists_scan`): an expression that reads something leaves groups open that its shape tells
(`Peg.Takes`), and the scan reads the same and leaves the same groups open (`Runs.reaches`).
-/

namespace BraceLisp

open Grammar

/-! ### Attempts -/

/-- An expression that is tried at the offset `pos`, where the text `rest` follows. Around it
`opened` groups are open. -/
structure Attempt where
  expr : Peg
  pos : Nat
  rest : List Char
  opened : Nat

/-- The number of groups that are open after an expression, and were not before it. A group is
open as soon as its opening bracket has been read, and until all of the group has been. -/
def Peg.opens : Peg → Nat
  | .rule (.opening _) => 1
  | _ => 0

namespace Attempt

/-- Within an attempt, the other one is made. -/
inductive Tries : Attempt → Attempt → Prop where
  | seq_first {e f : Peg} {pos n : Nat} {cs : List Char} :
      Tries ⟨.seq e f, pos, cs, n⟩ ⟨e, pos, cs, n⟩
  | seq_second {e f : Peg} {pos n : Nat} {cs : List Char} {r : Reading}
      (he : Runs e pos cs (some r)) :
      Tries ⟨.seq e f, pos, cs, n⟩ ⟨f, r.pos, r.rest, n + e.opens⟩
  | choice_first {e f : Peg} {pos n : Nat} {cs : List Char} :
      Tries ⟨.choice e f, pos, cs, n⟩ ⟨e, pos, cs, n⟩
  | choice_second {e f : Peg} {pos n : Nat} {cs : List Char} (he : Runs e pos cs none) :
      Tries ⟨.choice e f, pos, cs, n⟩ ⟨f, pos, cs, n⟩
  | star_first {e : Peg} {pos n : Nat} {cs : List Char} :
      Tries ⟨.star e, pos, cs, n⟩ ⟨e, pos, cs, n⟩
  | star_again {e : Peg} {pos n : Nat} {cs : List Char} {r : Reading}
      (he : Runs e pos cs (some r)) : Tries ⟨.star e, pos, cs, n⟩ ⟨.star e, r.pos, r.rest, n⟩
  | not {e : Peg} {pos n : Nat} {cs : List Char} : Tries ⟨.not e, pos, cs, n⟩ ⟨e, pos, cs, n⟩
  | rule {r : Rule} {pos n : Nat} {cs : List Char} :
      Tries ⟨.rule r, pos, cs, n⟩ ⟨r.body, pos, cs, n⟩

/-- The attempt to read a program. -/
def program (cs : List Char) : Attempt := ⟨.rule .program, 0, cs, 0⟩

end Attempt

/-! ### Where the scan stands -/

namespace Scan

/-- The scan stands at the offset `pos`, where the text `cs` follows, and groups of the kinds `ks`
are open. If it is in a comment, the comment ends there. -/
structure StandsAt (s : Scan) (pos : Nat) (ks : List Bracket) (cs : List Char) : Prop where
  pos : s.pos = pos
  openKinds : s.openKinds = ks
  comment : s.place = .comment → Text.Stops (· != '\n') cs

variable {s : Scan} {pos : Nat} {ks : List Bracket} {c : Char} {cs body : List Char} {b : Bracket}

lemma StandsAt.of_place_ne (hpos : s.pos = pos) (hkinds : s.openKinds = ks)
    (hplace : s.place ≠ .comment) : s.StandsAt pos ks cs :=
  ⟨hpos, hkinds, fun hcomment => absurd hcomment hplace⟩

lemma standsAt_init (cs : List Char) : init.StandsAt 0 [] cs :=
  .of_place_ne rfl rfl (by simp [init])

lemma StandsAt.length_groups (h : s.StandsAt pos ks cs) : s.groups.length = ks.length := by
  rw [← h.openKinds, length_openKinds]

/-- Only a line feed can follow where a comment ends. -/
lemma StandsAt.place_ne (h : s.StandsAt pos ks (c :: cs)) (hc : c ≠ '\n') :
    s.place ≠ .comment := by
  intro hplace
  exact hc (by simpa using h.comment hplace)

lemma StandsAt.blank (h : s.StandsAt pos ks (c :: cs)) (hc : isBlank c = true) :
    ∃ t, s.step c = some t ∧ t.StandsAt (pos + c.utf8Size) ks cs := by
  obtain ⟨t, hstep, hgroups, hplace⟩ := s.step_blank hc
  have hgap : t.place = .gap := by
    by_cases hnewline : c = '\n'
    · exact hplace (Or.inr hnewline)
    · exact hplace (Or.inl (h.place_ne hnewline))
  refine ⟨t, hstep, .of_place_ne ?_ ((openKinds_congr hgroups).trans h.openKinds) ?_⟩
  · rw [step_pos hstep, h.pos]
  · rw [hgap]
    simp

lemma StandsAt.symbolChar (h : s.StandsAt pos ks (c :: cs)) (hc : isSymbolChar c = true) :
    ∃ t, s.step c = some t ∧ t.StandsAt (pos + c.utf8Size) ks cs := by
  have hplace := h.place_ne (ne_of_isSymbolChar hc rfl)
  cases hs : s.place with
  | gap =>
    refine ⟨{ s with pos := s.pos + c.utf8Size, place := .word s.pos [c] }, ?_, ?_⟩
    · rw [step, hs]
      exact start_symbolChar s hc
    · exact .of_place_ne (by rw [h.pos]) h.openKinds (by simp)
  | comment => exact absurd hs hplace
  | word start chars =>
    refine ⟨{ s with pos := s.pos + c.utf8Size, place := .word start (c :: chars) }, ?_, ?_⟩
    · simp only [step, hs, hc, if_true]
    · exact .of_place_ne (by rw [h.pos]) h.openKinds (by simp)

lemma StandsAt.opening (h : s.StandsAt pos ks (b.opening :: cs)) :
    ∃ t, s.step b.opening = some t ∧ t.StandsAt (pos + 1) (b :: ks) cs := by
  have hplace := h.place_ne (by cases b <;> decide)
  refine ⟨_, (step_of_not_symbolChar hplace b.isSymbolChar_opening).trans (start_opening _ b),
    .of_place_ne ?_ ?_ (by simp)⟩
  · rw [settle_pos, h.pos]
  · exact congrArg (b :: ·) ((openKinds_congr s.settle_groups).trans h.openKinds)

lemma StandsAt.closing (h : s.StandsAt pos (b :: ks) (b.closing :: cs)) :
    ∃ t, s.step b.closing = some t ∧ t.StandsAt (pos + 1) ks cs := by
  have hplace := h.place_ne (by cases b <;> decide)
  obtain ⟨g, gs, hgroups, rfl, rfl⟩ : ∃ g gs, s.groups = g :: gs ∧ g.kind = b ∧
      gs.map OpenGroup.kind = ks := List.map_eq_cons_iff.mp h.openKinds
  have hclose : s.settle.close g.kind = some ⟨s.settle.pos + 1, .gap,
      .group g.kind ⟨g.start, s.settle.pos + 1⟩ s.settle.level.reverse :: g.before, gs⟩ := by
    simp [close, hgroups]
  refine ⟨_, (step_of_not_symbolChar hplace g.kind.isSymbolChar_closing).trans
    ((start_closing _ g.kind).trans hclose), .of_place_ne ?_ rfl (by simp)⟩
  rw [settle_pos, h.pos]

lemma StandsAt.semicolon (h : s.StandsAt pos ks (';' :: cs)) :
    ∃ t, s.step ';' = some t ∧ t.pos = pos + ';'.utf8Size ∧ t.openKinds = ks ∧
      t.place = .comment := by
  have hplace := h.place_ne (by decide)
  refine ⟨_, step_of_not_symbolChar hplace rfl, ?_, ?_, rfl⟩
  · exact congrArg (· + _) ((settle_pos s).trans h.pos)
  · exact (openKinds_congr s.settle_groups).trans h.openKinds

/-- A comment goes on over all characters but a line feed. -/
lemma step_inComment (hs : s.place = .comment) (hc : (c != '\n') = true) :
    ∃ t, s.step c = some t ∧ t.pos = s.pos + c.utf8Size ∧ t.openKinds = s.openKinds ∧
      t.place = .comment := by
  have hc : c ≠ '\n' := by simpa using hc
  refine ⟨{ s with pos := s.pos + c.utf8Size, place := .comment }, ?_, rfl, rfl, rfl⟩
  rw [step, hs]
  simp only [if_neg hc]

lemma reaches_inComment (hs : s.place = .comment) (hbody : ∀ c ∈ body, (c != '\n') = true)
    (cs : List Char) : ∃ t, s.Reaches (body ++ cs) t cs ∧
      t.pos = s.pos + Text.utf8Length body ∧ t.openKinds = s.openKinds := by
  obtain ⟨pos, place, level, groups⟩ := s
  cases hs
  exact ⟨_, ⟨body, rfl, run_comment hbody⟩, rfl, rfl⟩

/-- The scan reads a comment to the end of its line. -/
lemma StandsAt.comment_body (h : s.StandsAt pos ks (';' :: (body ++ cs)))
    (hbody : ∀ c ∈ body, (c != '\n') = true) (hend : Text.Stops (· != '\n') cs) :
    ∃ t, s.Reaches (';' :: (body ++ cs)) t cs ∧
      t.StandsAt (pos + ';'.utf8Size + Text.utf8Length body) ks cs := by
  obtain ⟨t, hstep, hpos, hkinds, hplace⟩ := h.semicolon
  obtain ⟨u, hreaches, hpos', hkinds'⟩ := reaches_inComment hplace hbody cs
  refine ⟨u, (Reaches.step hstep _).trans hreaches, ?_, hkinds'.trans hkinds, fun _ => hend⟩
  rw [hpos', hpos]

end Scan

/-! ### The groups that an expression leaves open -/

/-- A rule that is tried in groups and outside of them, and that leaves the same groups open. -/
def Grammar.Rule.isInner : Rule → Bool
  | .opening _ => false
  | .closing _ => false
  | .endOfInput => false
  | .program => false
  | _ => true

namespace Peg

/-- Where the expression is tried in groups of the kinds `ks` and reads something, groups of the
kinds `ks'` are open then. It reads brackets and comments by their rules, and the first part of a
sequence opens as many groups as it is counted to. -/
inductive Takes : Peg → List Bracket → List Bracket → Prop where
  | empty {ks : List Bracket} : Takes .empty ks ks
  | start {ks : List Bracket} : Takes .start ks ks
  | stop {ks : List Bracket} : Takes .stop ks ks
  | char {p : Char → Bool} {ks : List Bracket}
      (hp : ∀ c, p c = true → isBlank c = true ∨ isSymbolChar c = true) : Takes (.char p) ks ks
  | seq {e f : Peg} {ks ks₁ ks₂ : List Bracket} (he : Takes e ks ks₁)
      (hopens : ks₁.length = ks.length + e.opens) (hf : Takes f ks₁ ks₂) : Takes (.seq e f) ks ks₂
  | choice {e f : Peg} {ks ks' : List Bracket} (he : Takes e ks ks') (hf : Takes f ks ks') :
      Takes (.choice e f) ks ks'
  | star {e : Peg} {ks : List Bracket} (he : Takes e ks ks) : Takes (.star e) ks ks
  | not {e : Peg} {ks ks' : List Bracket} (he : Takes e ks ks') : Takes (.not e) ks ks
  | opening {b : Bracket} {ks : List Bracket} : Takes (.rule (.opening b)) ks (b :: ks)
  | closing {b : Bracket} {ks : List Bracket} : Takes (.rule (.closing b)) (b :: ks) ks
  | endOfInput : Takes (.rule .endOfInput) [] []
  | program : Takes (.rule .program) [] []
  | inner {r : Rule} {ks : List Bracket} (hr : r.isInner = true) : Takes (.rule r) ks ks

variable {e f : Peg} {ks ks' : List Bracket}

lemma takes_oneOf {cs : List Char} (h : ∀ c ∈ cs, isBlank c = true ∨ isSymbolChar c = true)
    (ks : List Bracket) : (oneOf cs).Takes ks ks := by
  induction cs with
  | nil => exact .not .empty
  | cons c cs ih =>
    refine .choice (.char fun d hd => ?_) (ih fun d hd => h d (List.mem_cons_of_mem _ hd))
    rw [beq_iff_eq.mp hd]
    exact h c List.mem_cons_self

lemma takes_gap (ks : List Bracket) : gap.Takes ks ks :=
  .seq (.star (.inner rfl)) rfl (.star (.seq (.inner rfl) rfl (.star (.inner rfl))))

lemma takes_items (ks : List Bracket) : items.Takes ks ks :=
  .star (.seq (takes_gap ks) rfl (.inner rfl))

lemma takes_expressions (ks : List Bracket) : (many (.rule .expression)).Takes ks ks :=
  .choice (.seq (.inner rfl) rfl (takes_items ks)) .empty

lemma takes_inside (hf : f.Takes ks ks') : (inside f).Takes ks ks' :=
  .seq (takes_gap ks) rfl (.seq (takes_expressions ks) rfl (.seq (takes_gap ks) rfl hf))

lemma takes_body {r : Rule} (hr : r.isInner = true) (hcomment : r ≠ .comment)
    (ks : List Bracket) : r.body.Takes ks ks := by
  cases r with
  | blank => exact takes_oneOf (by simp [isBlank]) ks
  | comment => exact absurd rfl hcomment
  | symbolChar =>
    have halphanum : (Peg.char Char.isAlphanum).Takes ks ks :=
      .char fun c hc => Or.inr (by simp [isSymbolChar, hc])
    exact .choice halphanum (takes_oneOf (by simp [isSymbolChar]) ks)
  | number =>
    have hminus : (lit '-').Takes ks ks :=
      .char fun c hc => Or.inr (by rw [beq_iff_eq.mp hc]; rfl)
    have hdigit : (Peg.char Char.isDigit).Takes ks ks :=
      .char fun c hc => Or.inr (isSymbolChar_of_isDigit hc)
    exact .seq (.choice hminus .empty) rfl
      (.seq (.seq hdigit rfl (.star hdigit)) rfl (.not (.inner rfl)))
  | symbol => exact .seq (.inner rfl) rfl (.star (.inner rfl))
  | group b => exact .seq .opening rfl (takes_inside .closing)
  | expression =>
    exact .choice (.inner rfl) (.choice (.inner rfl) (.choice (.inner rfl) (.inner rfl)))
  | _ => cases hr

lemma takes_program : Rule.program.body.Takes [] [] := .seq .start rfl (takes_inside .endOfInput)

end Peg

/-! ### Runs -/

namespace Reading

@[simp] lemma ofRule_pos (rule : Rule) (start : Nat) (r : Reading) :
    (ofRule rule start r).pos = r.pos := by
  unfold ofRule
  split <;> rfl

@[simp] lemma ofRule_rest (rule : Rule) (start : Nat) (r : Reading) :
    (ofRule rule start r).rest = r.rest := by
  unfold ofRule
  split <;> rfl

end Reading

namespace Runs

variable {e : Peg} {pos : Nat} {cs : List Char} {o : Option Reading} {r : Reading}
variable {s : Scan} {ks ks' : List Bracket}

/-- A comment is read to the end of its line. -/
lemma exists_comment (h : Runs (.rule .comment) pos cs (some r)) :
    ∃ body, cs = ';' :: (body ++ r.rest) ∧ (∀ c ∈ body, (c != '\n') = true) ∧
      Text.Stops (· != '\n') r.rest ∧ r.pos = pos + ';'.utf8Size + Text.utf8Length body := by
  obtain ⟨ds, rfl⟩ : ∃ ds, cs = ';' :: ds := by
    cases h with
    | rule hbody =>
      cases hbody with
      | seq hsemicolon _ =>
        obtain ⟨c, rfl, hc, -⟩ := (Peg.oneChar_lit ';').exists_of_runs hsemicolon
        exact ⟨_, by rw [beq_iff_eq.mp hc]⟩
  obtain ⟨body, rest, rfl, hbody, hrest⟩ := Text.exists_run (· != '\n') ds
  cases h.unique (comment hbody hrest)
  exact ⟨body, rfl, hbody, hrest, rfl⟩

/-- From where an expression is tried, the scan gets to where the expression has read. -/
lemma reaches (h : Runs e pos cs o) (he : e.Takes ks ks') (hs : s.StandsAt pos ks cs) :
    ∀ r ∈ o, ∃ t, s.Reaches cs t r.rest ∧ t.StandsAt r.pos ks' r.rest := by
  induction h generalizing s ks ks' with
  | empty =>
    cases he
    rintro _ ⟨⟩
    exact ⟨s, .refl s _, hs⟩
  | @char _ _ c _ hc =>
    cases he with
    | char hp =>
      rintro _ ⟨⟩
      rcases hp c hc with hc | hc
      · obtain ⟨t, hstep, ht⟩ := hs.blank hc
        exact ⟨t, .step hstep _, ht⟩
      · obtain ⟨t, hstep, ht⟩ := hs.symbolChar hc
        exact ⟨t, .step hstep _, ht⟩
  | start =>
    cases he
    rintro _ ⟨⟩
    exact ⟨s, .refl s _, hs⟩
  | stop =>
    cases he
    rintro _ ⟨⟩
    exact ⟨s, .refl s _, hs⟩
  | @seq _ _ _ _ r q _ _ ihe ihf =>
    cases he with
    | seq he _ hf =>
      rintro _ ⟨⟩
      obtain ⟨t, hreaches, ht⟩ := ihe he hs r rfl
      obtain ⟨u, hreaches', hu⟩ := ihf hf ht q rfl
      exact ⟨u, hreaches.trans hreaches', hu⟩
  | choice_first _ ihe =>
    cases he with
    | choice he _ => exact ihe he hs
  | choice_second _ _ _ ihf =>
    cases he with
    | choice _ hf => exact ihf hf hs
  | @star_step _ _ _ r q _ _ ihe ihs =>
    cases he with
    | star he =>
      rintro _ ⟨⟩
      obtain ⟨t, hreaches, ht⟩ := ihe he hs r rfl
      obtain ⟨u, hreaches', hu⟩ := ihs (.star he) ht q rfl
      exact ⟨u, hreaches.trans hreaches', hu⟩
  | star_stop _ =>
    cases he
    rintro _ ⟨⟩
    exact ⟨s, .refl s _, hs⟩
  | not _ =>
    cases he
    rintro _ ⟨⟩
    exact ⟨s, .refl s _, hs⟩
  | @rule r pos cs q h ih =>
    rintro _ ⟨⟩
    -- brackets and comments are the scan's own steps, and the other rules come to their bodies
    rw [Reading.ofRule_pos, Reading.ofRule_rest]
    cases he with
    | opening =>
      cases h with
      | char hc =>
        rw [beq_iff_eq] at hc
        subst hc
        obtain ⟨t, hstep, ht⟩ := hs.opening
        rw [Bracket.utf8Size_opening]
        exact ⟨t, .step hstep _, ht⟩
    | closing =>
      cases h with
      | char hc =>
        rw [beq_iff_eq] at hc
        subst hc
        obtain ⟨t, hstep, ht⟩ := hs.closing
        rw [Bracket.utf8Size_closing]
        exact ⟨t, .step hstep _, ht⟩
    | endOfInput => exact ih .stop hs q rfl
    | program => exact ih Peg.takes_program hs q rfl
    | inner hr =>
      by_cases hcomment : r = .comment
      · subst hcomment
        obtain ⟨body, rfl, hbody, hend, hpos⟩ := exists_comment (.rule h)
        rw [Reading.ofRule_rest] at hend ⊢
        rw [Reading.ofRule_pos] at hpos
        rw [hpos]
        exact hs.comment_body hbody hend
      · exact ih (Peg.takes_body hr hcomment ks) hs q rfl
  | _ => nofun

end Runs

/-! ### Where attempts are made -/

/-- What is tried in a comment after its semicolon. -/
inductive Peg.InComment : Peg → Prop where
  | all : InComment (.star (.seq (.not (lit '\n')) any))
  | one : InComment (.seq (.not (lit '\n')) any)
  | guard : InComment (.not (lit '\n'))

namespace Attempt

variable {s : Scan} {a b : Attempt} {cs : List Char}

/-- The scan stands where an attempt is made, and has the same groups open. Within a comment and at
a bracket single characters are tried, and any may stand there. -/
inductive At (s : Scan) : Attempt → Prop where
  | takes {e : Peg} {pos : Nat} {cs : List Char} {ks ks' : List Bracket} (he : e.Takes ks ks')
      (hs : s.StandsAt pos ks cs) : At s ⟨e, pos, cs, ks.length⟩
  | char {p : Char → Bool} {cs : List Char} : At s ⟨.char p, s.pos, cs, s.groups.length⟩
  | comment {pos : Nat} {cs : List Char} {ks : List Bracket} (hs : s.StandsAt pos ks cs) :
      At s ⟨Rule.comment.body, pos, cs, ks.length⟩
  | inComment {e : Peg} {cs : List Char} (hs : s.place = .comment) (he : e.InComment) :
      At s ⟨e, s.pos, cs, s.groups.length⟩

lemma At.of_standsAt {pos : Nat} {ks : List Bracket} (hs : s.StandsAt pos ks cs)
    (p : Char → Bool) : At s ⟨.char p, pos, cs, ks.length⟩ := by
  rw [← hs.pos, ← hs.length_groups]
  exact .char

lemma At.pos (h : At s a) : s.pos = a.pos := by
  cases h with
  | takes _ hs => exact hs.pos
  | char => rfl
  | comment hs => exact hs.pos
  | inComment => rfl

lemma At.opened (h : At s a) : s.groups.length = a.opened := by
  cases h with
  | takes _ hs => exact hs.length_groups
  | char => rfl
  | comment hs => exact hs.length_groups
  | inComment => rfl

lemma Tries.of_takes {e : Peg} {pos : Nat} {ks ks' : List Bracket}
    (h : Tries ⟨e, pos, cs, ks.length⟩ b) (he : e.Takes ks ks') (hs : s.StandsAt pos ks cs) :
    ∃ t, s.Reaches cs t b.rest ∧ At t b := by
  cases h with
  | seq_first =>
    cases he with
    | seq he _ _ => exact ⟨s, .refl s _, .takes he hs⟩
  | seq_second h =>
    cases he with
    | seq he hopens hf =>
      obtain ⟨t, hreaches, ht⟩ := h.reaches he hs _ rfl
      rw [← hopens]
      exact ⟨t, hreaches, .takes hf ht⟩
  | choice_first =>
    cases he with
    | choice he _ => exact ⟨s, .refl s _, .takes he hs⟩
  | choice_second _ =>
    cases he with
    | choice _ hf => exact ⟨s, .refl s _, .takes hf hs⟩
  | star_first =>
    cases he with
    | star he => exact ⟨s, .refl s _, .takes he hs⟩
  | star_again h =>
    cases he with
    | star he =>
      obtain ⟨t, hreaches, ht⟩ := h.reaches he hs _ rfl
      exact ⟨t, hreaches, .takes (.star he) ht⟩
  | not =>
    cases he with
    | not he => exact ⟨s, .refl s _, .takes he hs⟩
  | @rule r =>
    refine ⟨s, .refl s _, ?_⟩
    cases he with
    | opening => exact .of_standsAt hs _
    | closing => exact .of_standsAt hs _
    | endOfInput =>
      have hstop : Peg.stop.Takes [] [] := .stop
      exact .takes hstop hs
    | program => exact .takes Peg.takes_program hs
    | inner hr =>
      by_cases hcomment : r = .comment
      · subst hcomment
        exact .comment hs
      · exact .takes (Peg.takes_body hr hcomment ks) hs

lemma Tries.of_comment {pos : Nat} {ks : List Bracket}
    (h : Tries ⟨Rule.comment.body, pos, cs, ks.length⟩ b) (hs : s.StandsAt pos ks cs) :
    ∃ t, s.Reaches cs t b.rest ∧ At t b := by
  cases h with
  | seq_first => exact ⟨s, .refl s _, .of_standsAt hs _⟩
  | seq_second h =>
    cases h with
    | char hc =>
      rw [beq_iff_eq] at hc
      subst hc
      obtain ⟨t, hstep, hpos, hkinds, hplace⟩ := hs.semicolon
      rw [← hpos, ← hkinds, Scan.length_openKinds]
      exact ⟨t, .step hstep _, .inComment hplace .all⟩

lemma Tries.of_inComment {e : Peg} (h : Tries ⟨e, s.pos, cs, s.groups.length⟩ b)
    (hs : s.place = .comment) (he : e.InComment) : ∃ t, s.Reaches cs t b.rest ∧ At t b := by
  cases he with
  | all =>
    cases h with
    | star_first => exact ⟨s, .refl s _, .inComment hs .one⟩
    | star_again h =>
      obtain ⟨c, rfl, hc, hpos⟩ := Peg.oneChar_notNewline.exists_of_runs h
      obtain ⟨t, hstep, hpos', hkinds, hplace⟩ := Scan.step_inComment hs hc
      rw [hpos, ← hpos', ← s.length_openKinds, ← hkinds, t.length_openKinds]
      exact ⟨t, .step hstep _, .inComment hplace .all⟩
  | one =>
    cases h with
    | seq_first => exact ⟨s, .refl s _, .inComment hs .guard⟩
    | seq_second h =>
      cases h with
      | not => exact ⟨s, .refl s _, .char⟩
  | guard =>
    cases h with
    | not => exact ⟨s, .refl s _, .char⟩

/-- The scan gets from one attempt to those that are made within it. -/
lemma Tries.exists_scan (h : a.Tries b) (ha : At s a) :
    ∃ t, s.Reaches a.rest t b.rest ∧ At t b := by
  cases ha with
  | takes he hs => exact h.of_takes he hs
  | char => cases h
  | comment hs => exact h.of_comment hs
  | inComment hs he => exact h.of_inComment hs he

/-- The scan gets to all attempts at a program. -/
theorem exists_scan (h : Relation.ReflTransGen Tries (program cs) a) :
    ∃ s, Scan.init.Reaches cs s a.rest ∧ At s a := by
  induction h with
  | refl => exact ⟨_, .refl _ _, .takes .program (Scan.standsAt_init cs)⟩
  | tail _ hstep ih =>
    obtain ⟨s, hs, hat⟩ := ih
    obtain ⟨t, ht, hat'⟩ := hstep.exists_scan hat
    exact ⟨t, hs.trans ht, hat'⟩

end Attempt

end BraceLisp
