import BraceLisp.LineBuffer
import BraceLisp.Proofs.Lexemes

/-!
The brackets that are open at the end of a text.

They are counted without regard to what they enclose: the count is a sum over the lexemes
(`Lexeme.balance`). The lexemes of a program add up to nothing (`Groups.balance`), and the lexemes
of a line are the same whatever follows the line (`Lexeme.scanFrom_line`). So a text that closing
brackets make a program of lacks as many as the count says (`open_brackets_are_counted`).
-/

namespace BraceLisp

open Grammar

/-- A text of closing brackets. -/
def closers (ws : List Bracket) : String := String.ofList (ws.map Bracket.closing)

namespace Lexeme

/-- What lexemes add to the number of open brackets. -/
def balance (ls : List Lexeme) : Int := ls.foldr (fun l n => l.weight + n) 0

variable {ls ms : List Lexeme} {l : Lexeme}

@[simp] lemma balance_nil : balance [] = 0 := rfl

@[simp] lemma balance_cons : balance (l :: ls) = l.weight + balance ls := rfl

@[simp] lemma balance_append : balance (ls ++ ms) = balance ls + balance ms := by
  induction ls with
  | nil => simp
  | cons l ls ih => rw [List.cons_append, balance_cons, balance_cons, ih, Int.add_assoc]

lemma balance_tokens : balance (tokens ls) = balance ls := by
  induction ls with
  | nil => rfl
  | cons l ls ih =>
    by_cases hl : l.kind = .comment
    · have hweight : l.weight = 0 := by rw [weight, hl]
      rw [tokens, List.filter_cons_of_neg (by simpa using hl), balance_cons, hweight, Int.zero_add]
      exact ih
    · rw [tokens, List.filter_cons_of_pos (by simpa using hl), balance_cons, balance_cons]
      exact congrArg (l.weight + ·) ih

lemma openCount?_of_valid (h : ∀ l ∈ ls, l.kind ≠ .invalid) :
    openCount? ls = some (balance ls).toNat := by
  have hany : ls.any isInvalid = false := by
    rw [List.any_eq_false]
    exact fun l hl => by simpa [isInvalid] using h l hl
  rw [openCount?, hany]
  rfl

variable {pos : Nat}

/-- The lexemes before a line feed do not depend on what follows it. -/
lemma scanFrom_line (cs ds : List Char) :
    scanFrom pos (cs ++ '\n' :: ds) =
      scanFrom pos cs ++ scanFrom (pos + Text.utf8Length cs + 1) ds := by
  induction pos, cs using scanFrom.induct with
  | case1 pos =>
    rw [List.nil_append, scanFrom_space rfl, scanFrom_nil]
    rfl
  | case2 pos c cs hspace ih =>
    rw [List.cons_append, scanFrom_space hspace, scanFrom_space hspace, ih, Text.utf8Length_cons,
      Nat.add_assoc pos]
  | case3 pos c cs hspace k n hfirst stop ih =>
    obtain ⟨n, rfl, hle⟩ := exists_of_first hfirst
    -- neither the kind nor the length of the lexeme depends on what follows the line
    have hfirst' : first (c :: cs ++ '\n' :: ds) = (k, n + 1) := by
      rw [first_append (List.cons_ne_nil c cs) (Text.stops_cons.mpr rfl) (Text.stops_cons.mpr rfl),
        hfirst]
    have hspace : isSpace c = false := by simpa using hspace
    have hlength := congrArg Text.utf8Length (List.take_append_drop n cs)
    have hstop : pos + Text.utf8Length (c :: cs) =
        pos + Text.utf8Length (c :: cs.take n) + Text.utf8Length (cs.drop n) := by
      rw [Text.utf8Length_append] at hlength
      rw [Text.utf8Length_cons, Text.utf8Length_cons]
      omega
    rw [Nat.add_sub_cancel] at ih
    rw [List.cons_append] at hfirst' ⊢
    rw [scanFrom_first hspace hfirst', scanFrom_first hspace hfirst,
      List.take_append_of_le_length hle, List.drop_append_of_le_length hle, List.cons_append, hstop]
    exact congrArg _ ih

/-- Closing brackets on a line of their own leave the lexemes before them as they are. -/
lemma scan_closers (text : String) (ws : List Bracket) :
    scan (text ++ "\n" ++ closers ws) = scan text ++
      scanFrom (Text.utf8Length text.toList + 1) (ws.map Bracket.closing) := by
  have hsource : (text ++ "\n" ++ closers ws).toList =
      text.toList ++ '\n' :: ws.map Bracket.closing := by
    simp [closers]
  rw [scan, hsource, scanFrom_line, Nat.zero_add]
  rfl

lemma balance_closers (ws : List Bracket) :
    balance (scanFrom pos (ws.map Bracket.closing)) = -(ws.length : Int) := by
  induction ws generalizing pos with
  | nil => rw [List.map_nil, scanFrom_nil]; rfl
  | cons b ws ih =>
    have hclosing : scanFrom pos (b.closing :: ws.map Bracket.closing) =
        Token.Placed.lexeme ⟨pos, .closing b⟩ ::
          scanFrom (pos + Text.utf8Length [b.closing]) (ws.map Bracket.closing) :=
      scanFrom_token (t := .closing b) trivial
    have hweight : (Token.Placed.lexeme ⟨pos, .closing b⟩).weight = -1 := rfl
    rw [List.map_cons, hclosing, balance_cons, hweight, ih, List.length_cons]
    omega

end Lexeme

/-- Brackets that are balanced add up to nothing. -/
lemma Groups.balance {ts : List Token.Placed} {fs : List Form} (h : Groups ts fs) :
    Lexeme.balance (ts.map Token.Placed.lexeme) = 0 := by
  induction h with
  | nil => rfl
  | @word start cs ts fs _ ih =>
    have hweight : (Token.Placed.lexeme ⟨start, .word cs⟩).weight = 0 := by
      rw [Lexeme.weight, Token.Placed.lexeme, Token.kind]
      cases isNumeral cs <;> rfl
    rw [List.map_cons, Lexeme.balance_cons, hweight, ih]
    rfl
  | @group b start stop inner ts ms fs _ _ ihinner ihrest =>
    have hopening : (Token.Placed.lexeme ⟨start, .opening b⟩).weight = 1 := rfl
    have hclosing : (Token.Placed.lexeme ⟨stop, .closing b⟩).weight = -1 := rfl
    simp [hopening, hclosing, ihinner, ihrest]

lemma Grammar.Accepts.scan {source : String} {t : Tree} (h : Accepts source t) :
    (∀ l ∈ Lexeme.scan source, l.kind ≠ .invalid) ∧ Lexeme.balance (Lexeme.scan source) = 0 := by
  obtain ⟨ts, fs, ⟨stop, rest, hlexes, hrest⟩, hgroups, rfl⟩ := accepts_iff_splits.mp h
  refine ⟨hlexes.kind_ne_invalid hrest, ?_⟩
  rw [Lexeme.scan, ← Lexeme.balance_tokens, hlexes.tokens_scanFrom hrest, hgroups.balance]

lemma openBrackets?_of_accepts {text : String} {t : Tree} (h : Accepts text t) :
    openBrackets? text = some 0 := by
  obtain ⟨hvalid, hbalance⟩ := h.scan
  rw [openBrackets?, Lexeme.openCount?_of_valid hvalid, hbalance]
  rfl

lemma openBrackets?_of_accepts_closers {text : String} {ws : List Bracket} {t : Tree}
    (h : Accepts (text ++ "\n" ++ closers ws) t) : openBrackets? text = some ws.length := by
  obtain ⟨hvalid, hbalance⟩ := h.scan
  rw [Lexeme.scan_closers] at hvalid hbalance
  rw [Lexeme.balance_append, Lexeme.balance_closers] at hbalance
  have hvalid : ∀ l ∈ Lexeme.scan text, l.kind ≠ .invalid :=
    fun l hl => hvalid l (List.mem_append_left _ hl)
  have htext : Lexeme.balance (Lexeme.scan text) = ws.length := by omega
  rw [openBrackets?, Lexeme.openCount?_of_valid hvalid, htext, Int.toNat_natCast]

lemma isIncomplete_of_openBrackets? {text : String} {n : Nat} (h : openBrackets? text = some n) :
    isIncomplete text = decide (0 < n) := by
  rw [isIncomplete, h]

/-- The text of a program to which a line has been added. -/
def LineBuffer.joined (b : LineBuffer) (line : String) : String :=
  if b.pending.isEmpty then line else b.pending ++ "\n" ++ line

lemma LineBuffer.push_of_isIncomplete {b : LineBuffer} {line : String} :
    b.push line = if isIncomplete (b.joined line) then (none, ⟨b.joined line⟩)
      else (some (b.joined line), empty) := rfl

/-- **Bracket counting never misjudges a program that can be completed.** If a text with closing
brackets on a line of their own is a program, then the count is the number of these brackets. So
lines that still need brackets are held back, and lines that need none are handed out; and a text
that is a program by itself is handed out. -/
theorem open_brackets_are_counted (text : String) :
    (∀ (ws : List Bracket) (t : Tree), Accepts (text ++ "\n" ++ closers ws) t →
      openBrackets? text = some ws.length ∧ isIncomplete text = decide (0 < ws.length) ∧
      ∀ (b : LineBuffer) (line : String), b.joined line = text →
        b.push line = if 0 < ws.length then (none, ⟨text⟩) else (some text, .empty)) ∧
    ∀ t, Accepts text t → isIncomplete text = false ∧
      ∀ (b : LineBuffer) (line : String), b.joined line = text →
        b.push line = (some text, .empty) := by
  refine ⟨fun ws t h => ?_, fun t h => ?_⟩
  · have hcount := openBrackets?_of_accepts_closers h
    have hincomplete := isIncomplete_of_openBrackets? hcount
    refine ⟨hcount, hincomplete, fun b line hjoined => ?_⟩
    rw [LineBuffer.push_of_isIncomplete, hjoined, hincomplete]
    simp only [decide_eq_true_eq]
  · have hincomplete := isIncomplete_of_openBrackets? (openBrackets?_of_accepts h)
    refine ⟨hincomplete, fun b line hjoined => ?_⟩
    rw [LineBuffer.push_of_isIncomplete, hjoined, hincomplete]
    rfl

/-- A group of which two brackets are missing, with a closing bracket in a comment, comes in two
lines. -/
theorem open_brackets_are_counted_comment :
    openBrackets? "(def ;)\n\x7bx" = some 2 ∧ isIncomplete "(def ;)\n\x7bx" = true ∧
    LineBuffer.push ⟨"(def ;)"⟩ "\x7bx" = (none, ⟨"(def ;)\n\x7bx"⟩) ∧
    LineBuffer.push ⟨"(def ;)\n\x7bx"⟩ "\x7d)" = (some "(def ;)\n\x7bx\n\x7d)", .empty) := by
  let p : Program := ⟨[.group .round ⟨0, 13⟩
    [.symbol ⟨1, 4⟩ "def", .group .curly ⟨8, 12⟩ [.symbol ⟨9, 10⟩ "x"]]], 13⟩
  have hclosed : Accepts "(def ;)\n\x7bx\n\x7d)" p.toTree := accepts_iff.mpr ⟨p, rfl, rfl⟩
  have hsource : "(def ;)\n\x7bx" ++ "\n" ++ closers [.curly, .round] =
      "(def ;)\n\x7bx\n\x7d)" := by decide
  obtain ⟨hcount, hincomplete, hpush⟩ := (open_brackets_are_counted "(def ;)\n\x7bx").1
    [.curly, .round] p.toTree (by rw [hsource]; exact hclosed)
  exact ⟨hcount, hincomplete, hpush ⟨"(def ;)"⟩ "\x7bx" rfl,
    ((open_brackets_are_counted "(def ;)\n\x7bx\n\x7d)").2 p.toTree hclosed).2
      ⟨"(def ;)\n\x7bx"⟩ "\x7d)" rfl⟩

end BraceLisp
