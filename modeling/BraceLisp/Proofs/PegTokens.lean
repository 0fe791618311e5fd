import BraceLisp.Proofs.Peg

/-!
How the grammar reads gaps and tokens.

Most of it is repetition of a class of characters (`Peg.OneChar`). A gap is read to its end
(`runs_gap`), and of a word the number rule takes all of it or nothing (`runs_number`), so that a
word is read as one expression (`runs_expression_word`).
-/

namespace BraceLisp

open Grammar

/-! ### Classes of characters -/

/-- The expression reads one character of a class, and no rule is reported. -/
structure Peg.OneChar (e : Peg) (p : Char → Bool) : Prop where
  reads : ∀ {pos : Nat} {c : Char} {cs : List Char}, p c = true →
    Runs e pos (c :: cs) (some ⟨pos + c.utf8Size, cs, []⟩)
  other : ∀ {pos : Nat} {c : Char} {cs : List Char}, p c = false → Runs e pos (c :: cs) none
  atEnd : ∀ {pos : Nat}, Runs e pos [] none

namespace Peg

lemma oneChar_char (p : Char → Bool) : OneChar (.char p) p := ⟨.char, .char_other, .char_end⟩

lemma oneChar_lit (c : Char) : OneChar (lit c) (· == c) := oneChar_char _

lemma oneChar_oneOf (cs : List Char) : OneChar (oneOf cs) cs.contains := by
  induction cs with
  | nil => exact ⟨nofun, fun _ => .not_fail .empty, .not_fail .empty⟩
  | cons d cs ih =>
    refine ⟨fun {_ c _} hc => ?_, fun hc => ?_, .choice_second .char_end ih.atEnd⟩
    · rw [List.contains_cons, Bool.or_eq_true] at hc
      rcases hcd : c == d with _ | _
      · exact .choice_second (.char_other hcd) (ih.reads (hc.resolve_left (by simp [hcd])))
      · exact .choice_first (.char hcd)
    · rw [List.contains_cons, Bool.or_eq_false_iff] at hc
      exact .choice_second (.char_other hc.1) (ih.other hc.2)

variable {e f : Peg} {p q : Char → Bool}

lemma OneChar.choice (he : e.OneChar p) (hf : f.OneChar q) :
    (Peg.choice e f).OneChar fun c => p c || q c := by
  refine ⟨fun {_ c _} hc => ?_, fun hc => ?_, .choice_second he.atEnd hf.atEnd⟩
  · rcases hp : p c with _ | _
    · exact .choice_second (he.other hp) (hf.reads (by simpa [hp] using hc))
    · exact .choice_first (he.reads hp)
  · rw [Bool.or_eq_false_iff] at hc
    exact .choice_second (he.other hc.1) (hf.other hc.2)

/-- A silent rule reads a character as its body does. -/
lemma OneChar.rule {r : Rule} (hr : r.body.OneChar p) (hsilent : r.isSilent = true) :
    (Peg.rule r).OneChar p := by
  refine ⟨fun {pos c cs} hc => ?_, fun hc => .rule_fail (hr.other hc), .rule_fail hr.atEnd⟩
  have hbody : Runs r.body pos (c :: cs) (some ⟨pos + c.utf8Size, cs, []⟩) := hr.reads hc
  have hrule := Runs.rule hbody
  rwa [Reading.ofRule, if_pos hsilent] at hrule

variable {cs rest : List Char} {pos : Nat}

lemma OneChar.fails (he : e.OneChar p) (hcs : Text.Stops p cs) : Runs e pos cs none := by
  cases cs with
  | nil => exact he.atEnd
  | cons c cs => exact he.other (Text.stops_cons.mp hcs)

lemma OneChar.exists_of_runs (he : e.OneChar p) {r : Reading} (h : Runs e pos cs (some r)) :
    ∃ c, cs = c :: r.rest ∧ p c = true ∧ r.pos = pos + c.utf8Size := by
  cases cs with
  | nil => cases h.unique he.atEnd
  | cons c cs =>
    rcases hc : p c with _ | _
    · cases h.unique (he.other hc)
    · cases h.unique (he.reads hc)
      exact ⟨c, rfl, hc, rfl⟩

lemma OneChar.star (he : e.OneChar p) (pos : Nat) (hcs : ∀ c ∈ cs, p c = true)
    (hrest : Text.Stops p rest) :
    Runs (.star e) pos (cs ++ rest) (some ⟨pos + Text.utf8Length cs, rest, []⟩) := by
  induction cs generalizing pos with
  | nil => exact .star_stop (he.fails hrest)
  | cons c cs ih =>
    have htail := ih (pos + c.utf8Size) fun d hd => hcs d (List.mem_cons_of_mem _ hd)
    rw [Nat.add_assoc] at htail
    exact .star_step (he.reads (hcs c List.mem_cons_self)) htail

lemma OneChar.plus (he : e.OneChar p) (hne : cs ≠ []) (hcs : ∀ c ∈ cs, p c = true)
    (hrest : Text.Stops p rest) :
    Runs (plus e) pos (cs ++ rest) (some ⟨pos + Text.utf8Length cs, rest, []⟩) := by
  cases cs with
  | nil => exact absurd rfl hne
  | cons c cs =>
    have htail := he.star (pos + c.utf8Size) (fun d hd => hcs d (List.mem_cons_of_mem _ hd)) hrest
    rw [Nat.add_assoc] at htail
    exact .seq (he.reads (hcs c List.mem_cons_self)) htail

lemma oneChar_blank : (Peg.rule .blank).OneChar isBlank := by
  have hbody : (Rule.body .blank).OneChar isBlank := by
    have hclass : isBlank = [' ', '\t', '\r', '\n'].contains := by
      funext c
      simp [isBlank, Bool.or_assoc]
    rw [hclass]
    exact oneChar_oneOf _
  exact hbody.rule rfl

lemma oneChar_symbolChar : (Peg.rule .symbolChar).OneChar isSymbolChar := by
  have hbody : (Rule.body .symbolChar).OneChar isSymbolChar := by
    have hclass : isSymbolChar = fun c => c.isAlphanum ||
        ['_', '+', '-', '*', '/', '\\', '=', '<', '>', '!', '&'].contains c := by
      funext c
      simp [isSymbolChar, Bool.or_assoc]
    rw [hclass]
    exact (oneChar_char _).choice (oneChar_oneOf _)
  exact hbody.rule rfl

/-- The characters of a comment. -/
lemma oneChar_notNewline : (Peg.seq (.not (lit '\n')) any).OneChar (· != '\n') := by
  refine ⟨fun hc => ?_, fun hc => ?_, .seq_second (.not .char_end) .char_end⟩
  · exact .seq (.not (.char_other (by simpa using hc))) (.char rfl)
  · exact .seq_first (.not_fail (.char (by simpa using hc)))

end Peg

/-! ### Gaps -/

/-- A blank, or the semicolon that a comment begins with. -/
def Grammar.beginsGap (c : Char) : Bool := isBlank c || c == ';'

/-- Every text is a gap and something that does not lengthen it. -/
lemma exists_gap (cs : List Char) :
    ∃ g rest, cs = g ++ rest ∧ IsGap rest g ∧ Text.Stops beginsGap rest := by
  cases cs with
  | nil => exact ⟨[], [], rfl, .nil, Text.stops_nil⟩
  | cons c cs =>
    by_cases hc : isBlank c = true
    · obtain ⟨g, rest, rfl, hg, hrest⟩ := exists_gap cs
      exact ⟨c :: g, rest, rfl, .blank hc hg, hrest⟩
    · by_cases hsemicolon : c = ';'
      · subst hsemicolon
        obtain ⟨body, after, rfl, hbody, hend⟩ := Text.exists_run (· != '\n') cs
        obtain ⟨g, rest, rfl, hg, hrest⟩ := exists_gap after
        exact ⟨';' :: (body ++ g), rest, by simp, .comment hbody hend hg, hrest⟩
      · exact ⟨[], c :: cs, rfl, .nil, by simp [beginsGap, hc, hsemicolon]⟩
  termination_by cs.length
  decreasing_by all_goals subst_vars; simp; try omega

namespace Runs

variable {pos : Nat} {cs rest g : List Char}

lemma comment {body : List Char} (hbody : ∀ c ∈ body, (c != '\n') = true)
    (hrest : Text.Stops (· != '\n') rest) :
    Runs (.rule .comment) pos (';' :: (body ++ rest))
      (some ⟨pos + ';'.utf8Size + Text.utf8Length body, rest, []⟩) :=
  .rule (r := .comment) (.seq (.char rfl) (Peg.oneChar_notNewline.star _ hbody hrest))

lemma comment_fails (h : Text.Stops beginsGap cs) : Runs (.rule .comment) pos cs none := by
  have hsemicolon : Text.Stops (· == ';') cs := h.mono fun c hc => by simp [beginsGap, hc]
  exact .rule_fail (.seq_first ((Peg.oneChar_lit ';').fails hsemicolon))

/-- The blanks at the front of a gap are read first, and then its comments, each with the blanks
after it. -/
lemma gap_parts (pos : Nat) (hg : IsGap rest g) (hrest : Text.Stops beginsGap rest) :
    ∃ mid ds, Runs (.star (.rule .blank)) pos (g ++ rest) (some ⟨mid, ds, []⟩) ∧
      Runs (.star (.seq (.rule .comment) (.star (.rule .blank)))) mid ds
        (some ⟨pos + Text.utf8Length g, rest, []⟩) := by
  induction hg generalizing pos with
  | nil =>
    have hblank : Text.Stops isBlank rest := hrest.mono fun c hc => by simp [beginsGap, hc]
    exact ⟨pos, rest, .star_stop (Peg.oneChar_blank.fails hblank),
      .star_stop (.seq_first (comment_fails hrest))⟩
  | @blank c g hc _ ih =>
    obtain ⟨mid, ds, hblanks, hcomments⟩ := ih (pos + c.utf8Size)
    rw [Nat.add_assoc] at hcomments
    exact ⟨mid, ds, .star_step (Peg.oneChar_blank.reads hc) hblanks, hcomments⟩
  | @comment body g hbody hend _ ih =>
    obtain ⟨mid, ds, hblanks, hcomments⟩ := ih (pos + ';'.utf8Size + Text.utf8Length body)
    have hlength : pos + ';'.utf8Size + Text.utf8Length body + Text.utf8Length g =
        pos + Text.utf8Length (';' :: (body ++ g)) := by
      simp [Nat.add_assoc]
    rw [hlength] at hcomments
    refine ⟨pos, ';' :: (body ++ g) ++ rest, .star_stop (Peg.oneChar_blank.other rfl), ?_⟩
    rw [List.cons_append, List.append_assoc]
    exact .star_step (.seq (comment hbody hend) hblanks) hcomments

/-- A gap is read to its end. -/
lemma gap (pos : Nat) (hg : IsGap rest g) (hrest : Text.Stops beginsGap rest) :
    Runs .gap pos (g ++ rest) (some ⟨pos + Text.utf8Length g, rest, []⟩) := by
  obtain ⟨mid, ds, hblanks, hcomments⟩ := gap_parts pos hg hrest
  exact .seq hblanks hcomments

end Runs

/-! ### Words -/

namespace Form

mutual

/-- The rules that match where a form is read. -/
def toPair : Form → Pair
  | number span _ => ⟨.number, span, []⟩
  | symbol span _ => ⟨.symbol, span, []⟩
  | group kind span members =>
    ⟨.group kind, span,
      ⟨.opening kind, ⟨span.start, span.start + 1⟩, []⟩
        :: (toPairs members ++ [⟨.closing kind, ⟨span.stop - 1, span.stop⟩, []⟩])⟩

def toPairs : List Form → List Pair
  | [] => []
  | f :: fs => f.toPair :: toPairs fs

end

end Form

namespace Runs

variable {pos : Nat} {cs rest : List Char}

/-- Digits to the end of a word are read, and nothing else is. -/
lemma digits (hcs : ∀ c ∈ cs, isSymbolChar c = true) (hrest : Text.Stops isSymbolChar rest) :
    Runs (.seq (.plus (.char Char.isDigit)) (.not (.rule .symbolChar))) pos (cs ++ rest)
      (if !cs.isEmpty && cs.all Char.isDigit then some ⟨pos + Text.utf8Length cs, rest, []⟩
        else none) := by
  have hdigit := Peg.oneChar_char Char.isDigit
  obtain ⟨run, more, rfl, hrun, hmore⟩ := Text.exists_run Char.isDigit cs
  cases more with
  | nil =>
    have hrest' : Text.Stops Char.isDigit rest := hrest.mono fun c => isSymbolChar_of_isDigit
    have hall : run.all Char.isDigit = true := List.all_eq_true.mpr hrun
    rw [List.append_nil, hall, Bool.and_true]
    cases run with
    | nil => exact .seq_first (.seq_first (hdigit.fails hrest'))
    | cons d run =>
      exact .seq (hdigit.plus (List.cons_ne_nil _ _) hrun hrest')
        (.not (Peg.oneChar_symbolChar.fails hrest))
  | cons c more =>
    have hc : c.isDigit = false := Text.stops_cons.mp hmore
    have hall : (run ++ c :: more).all Char.isDigit = false := by simp [hc]
    rw [hall, Bool.and_false, if_neg Bool.false_ne_true, List.append_assoc]
    cases run with
    | nil => exact .seq_first (.seq_first (hdigit.other hc))
    | cons d run =>
      have hsymbol : isSymbolChar c = true := hcs c (by simp)
      exact .seq_second (hdigit.plus (List.cons_ne_nil _ _) hrun (Text.stops_cons.mpr hc))
        (.not_fail (Peg.oneChar_symbolChar.reads hsymbol))

/-- The number rule takes a whole word or nothing of it. -/
lemma number (pos : Nat) (hcs : ∀ c ∈ cs, isSymbolChar c = true)
    (hrest : Text.Stops isSymbolChar rest) :
    Runs (.rule .number) pos (cs ++ rest)
      (if isNumeral cs then
        some ⟨pos + Text.utf8Length cs, rest, [⟨.number, ⟨pos, pos + Text.utf8Length cs⟩, []⟩]⟩
      else none) := by
  have hbody : Runs (Rule.body .number) pos (cs ++ rest)
      (if isNumeral cs then some ⟨pos + Text.utf8Length cs, rest, []⟩ else none) := by
    unfold isNumeral
    split
    · next cs =>
      have hsign : Runs (.opt (.lit '-')) pos ('-' :: (cs ++ rest))
          (some ⟨pos + '-'.utf8Size, cs ++ rest, []⟩) := .choice_first (.char rfl)
      have hdigits := hsign.seq_map (digits (fun c hc => hcs c (List.mem_cons_of_mem _ hc)) hrest)
      rw [Nat.add_assoc, ← Text.utf8Length_cons, apply_ite (Option.map _)] at hdigits
      exact hdigits
    · next hminus =>
      have hsign : Runs (.opt (.lit '-')) pos (cs ++ rest) (some ⟨pos, cs ++ rest, []⟩) := by
        refine .choice_second ((Peg.oneChar_lit '-').fails ?_) .empty
        cases cs with
        | nil => exact hrest.mono fun c hc => by rw [beq_iff_eq.mp hc]; rfl
        | cons c cs =>
          refine Text.stops_cons.mpr (beq_eq_false_iff_ne.mpr ?_)
          rintro rfl
          exact hminus cs rfl
      have hdigits := hsign.seq_map (digits hcs hrest)
      rw [apply_ite (Option.map _)] at hdigits
      exact hdigits
  have hrule := hbody.rule_map
  rwa [apply_ite (Option.map _)] at hrule

lemma symbol (hcs : IsWord cs) (hrest : Text.Stops isSymbolChar rest) :
    Runs (.rule .symbol) pos (cs ++ rest)
      (some ⟨pos + Text.utf8Length cs, rest, [⟨.symbol, ⟨pos, pos + Text.utf8Length cs⟩, []⟩]⟩) :=
  .rule (r := .symbol) (Peg.oneChar_symbolChar.plus hcs.1 hcs.2 hrest)

/-- A word is read as one expression: a number if it is a numeral, and a symbol otherwise. -/
lemma expression_word (hcs : IsWord cs) (hrest : Text.Stops isSymbolChar rest) :
    Runs (.rule .expression) pos (cs ++ rest)
      (some ⟨pos + Text.utf8Length cs, rest, [(Form.word pos cs).toPair]⟩) := by
  have hnumber := number pos hcs.2 hrest
  unfold Form.word
  split
  · next hnumeral =>
    rw [if_pos hnumeral] at hnumber
    exact .rule (r := .expression) (.choice_first hnumber)
  · next hnumeral =>
    rw [if_neg hnumeral] at hnumber
    exact .rule (r := .expression) (.choice_second hnumber (.choice_first (symbol hcs hrest)))

/-! ### Brackets -/

/-- Where no word begins, an expression is a group. -/
lemma expression_map {o : Option Reading} (hcs : Text.Stops isSymbolChar cs)
    (h : Runs (.choice (.rule (.group .round)) (.rule (.group .curly))) pos cs o) :
    Runs (.rule .expression) pos cs o := by
  have hnumber : Runs (.rule .number) pos cs none :=
    number pos (List.forall_mem_nil (isSymbolChar · = true)) hcs
  have hsymbol : Runs (.rule .symbol) pos cs none :=
    .rule_fail (.seq_first (Peg.oneChar_symbolChar.fails hcs))
  have hrule := rule_map (r := .expression) (.choice_second hnumber (.choice_second hsymbol h))
  have hsilent : Reading.ofRule .expression pos = id := rfl
  rwa [hsilent, Option.map_id] at hrule

lemma opening (pos : Nat) (b : Bracket) (cs : List Char) :
    Runs (.rule (.opening b)) pos (b.opening :: cs)
      (some ⟨pos + 1, cs, [⟨.opening b, ⟨pos, pos + 1⟩, []⟩]⟩) := by
  have hchar : Runs (.lit b.opening) pos (b.opening :: cs)
      (some ⟨pos + b.opening.utf8Size, cs, []⟩) := .char (beq_self_eq_true _)
  have hrule := Runs.rule (r := .opening b) hchar
  rwa [b.utf8Size_opening] at hrule

lemma closing (pos : Nat) (b : Bracket) (cs : List Char) :
    Runs (.rule (.closing b)) pos (b.closing :: cs)
      (some ⟨pos + 1, cs, [⟨.closing b, ⟨pos, pos + 1⟩, []⟩]⟩) := by
  have hchar : Runs (.lit b.closing) pos (b.closing :: cs)
      (some ⟨pos + b.closing.utf8Size, cs, []⟩) := .char (beq_self_eq_true _)
  have hrule := Runs.rule (r := .closing b) hchar
  rwa [b.utf8Size_closing] at hrule

lemma closing_fails {b : Bracket} (h : Text.Stops (· == b.closing) cs) :
    Runs (.rule (.closing b)) pos cs none :=
  .rule_fail ((Peg.oneChar_lit b.closing).fails h)

lemma group_fails {b : Bracket} (h : Text.Stops (· == b.opening) cs) :
    Runs (.rule (.group b)) pos cs none :=
  .rule_fail (.seq_first (.rule_fail ((Peg.oneChar_lit b.opening).fails h)))

/-- Nothing else begins an expression than a symbol character or an opening bracket. -/
lemma expression_fails
    (h : Text.Stops (fun c => isSymbolChar c || Nesting.isOpening c) cs) :
    Runs (.rule .expression) pos cs none := by
  have hsymbol : Text.Stops isSymbolChar cs := h.mono fun c hc => by simp [hc]
  have hgroup (b : Bracket) : Runs (.rule (.group b)) pos cs none := by
    refine group_fails (h.mono fun c hc => ?_)
    rw [beq_iff_eq.mp hc]
    simp [Nesting.isOpening]
  exact expression_map hsymbol (.choice_second (hgroup .round) (hgroup .curly))

lemma expression_closing (b : Bracket) : Runs (.rule .expression) pos (b.closing :: cs) none :=
  expression_fails (Text.stops_cons.mpr (by simp [Nesting.isOpening]))

/-- An expression that begins with an opening bracket is the group of that bracket. -/
lemma expression_opening {b : Bracket} {o : Option Reading}
    (h : Runs (.rule (.group b)) pos (b.opening :: cs) o) :
    Runs (.rule .expression) pos (b.opening :: cs) o := by
  refine expression_map (Text.stops_cons.mpr b.isSymbolChar_opening) ?_
  cases b with
  | round =>
    cases o with
    | none => exact .choice_second h (group_fails (Text.stops_cons.mpr rfl))
    | some r => exact .choice_first h
  | curly => exact .choice_second (group_fails (Text.stops_cons.mpr rfl)) h

end Runs

end BraceLisp
