import BraceLisp.Parse
import BraceLisp.Proofs.Tokens

/-!
Parsing expressions, and the grammar written with them.

An expression is tried at a place of a text, and there it fails or reads some characters (`Runs`).
A choice tries its second alternative only where the first one fails, a repetition reads as often
as it can, and neither is tried again when what comes after it fails. Inside of words nothing is
passed over; between the parts of groups and of programs a gap is, wherever there is one (`spaced`,
`many`). What an expression does at a place is settled (`Runs.unique`).
-/

namespace BraceLisp

open Grammar

/-- A parsing expression. -/
inductive Peg where
  | empty
  | char (accepts : Char → Bool)
  | start
  | stop
  | seq (e f : Peg)
  | choice (e f : Peg)
  | star (e : Peg)
  | not (e : Peg)
  | rule (r : Rule)

namespace Peg

def lit (c : Char) : Peg := .char (· == c)

def any : Peg := .char fun _ => true

def oneOf : List Char → Peg
  | [] => .not .empty
  | c :: cs => .choice (lit c) (oneOf cs)

def opt (e : Peg) : Peg := .choice e .empty

def plus (e : Peg) : Peg := .seq e (.star e)

/-- Blanks and comments, as many as there are. -/
def gap : Peg :=
  .seq (.star (.rule .blank)) (.star (.seq (.rule .comment) (.star (.rule .blank))))

/-- One expression after another, with a gap between them. -/
def spaced (e f : Peg) : Peg := .seq e (.seq gap f)

/-- An expression any number of times, with a gap between each two. -/
def many (e : Peg) : Peg := opt (.seq e (.star (.seq gap e)))

end Peg

namespace Grammar.Rule

open Peg

/-- The grammar. -/
def body : Rule → Peg
  | endOfInput => .stop
  | blank => oneOf [' ', '\t', '\r', '\n']
  | comment => .seq (lit ';') (.star (.seq (.not (lit '\n')) any))
  | symbolChar => .choice (.char Char.isAlphanum)
      (oneOf ['_', '+', '-', '*', '/', '\\', '=', '<', '>', '!', '&'])
  | number => .seq (opt (lit '-')) (.seq (plus (.char Char.isDigit)) (.not (.rule symbolChar)))
  | symbol => plus (.rule symbolChar)
  | opening b => lit b.opening
  | closing b => lit b.closing
  | group b => spaced (.rule (opening b)) (spaced (many (.rule expression)) (.rule (closing b)))
  | expression => .choice (.rule number) (.choice (.rule symbol)
      (.choice (.rule (group .round)) (.rule (group .curly))))
  | program => spaced .start (spaced (many (.rule expression)) (.rule endOfInput))

/-- A silent rule leaves no trace in what has been read. -/
def isSilent : Rule → Bool
  | blank => true
  | comment => true
  | symbolChar => true
  | expression => true
  | _ => false

end Grammar.Rule

/-- A rule that matched, where it matched, and the matches that it is made of. -/
structure Pair where
  rule : Rule
  span : Span
  children : List Pair

/-- How far an expression has read, what is left of the text, and the rules that matched. -/
structure Reading where
  pos : Nat
  rest : List Char
  pairs : List Pair

namespace Reading

/-- What two expressions have read, one after the other. -/
def andThen (r s : Reading) : Reading := { s with pairs := r.pairs ++ s.pairs }

/-- What a rule has read that was tried at the offset `start`. -/
def ofRule (rule : Rule) (start : Nat) (r : Reading) : Reading :=
  if rule.isSilent then r else { r with pairs := [⟨rule, ⟨start, r.pos⟩, r.pairs⟩] }

end Reading

/-- The expression, tried at the offset `pos` where the text `cs` follows, reads or fails. -/
inductive Runs : Peg → Nat → List Char → Option Reading → Prop where
  | empty {pos : Nat} {cs : List Char} : Runs .empty pos cs (some ⟨pos, cs, []⟩)
  | char {pos : Nat} {p : Char → Bool} {c : Char} {cs : List Char} (hc : p c = true) :
      Runs (.char p) pos (c :: cs) (some ⟨pos + c.utf8Size, cs, []⟩)
  | char_other {pos : Nat} {p : Char → Bool} {c : Char} {cs : List Char} (hc : p c = false) :
      Runs (.char p) pos (c :: cs) none
  | char_end {pos : Nat} {p : Char → Bool} : Runs (.char p) pos [] none
  | start {cs : List Char} : Runs .start 0 cs (some ⟨0, cs, []⟩)
  | start_later {pos : Nat} {cs : List Char} (hpos : pos ≠ 0) : Runs .start pos cs none
  | stop {pos : Nat} : Runs .stop pos [] (some ⟨pos, [], []⟩)
  | stop_before {pos : Nat} {c : Char} {cs : List Char} : Runs .stop pos (c :: cs) none
  | seq {e f : Peg} {pos : Nat} {cs : List Char} {r s : Reading} (he : Runs e pos cs (some r))
      (hf : Runs f r.pos r.rest (some s)) : Runs (.seq e f) pos cs (some (r.andThen s))
  | seq_first {e f : Peg} {pos : Nat} {cs : List Char} (he : Runs e pos cs none) :
      Runs (.seq e f) pos cs none
  | seq_second {e f : Peg} {pos : Nat} {cs : List Char} {r : Reading}
      (he : Runs e pos cs (some r)) (hf : Runs f r.pos r.rest none) : Runs (.seq e f) pos cs none
  | choice_first {e f : Peg} {pos : Nat} {cs : List Char} {r : Reading}
      (he : Runs e pos cs (some r)) : Runs (.choice e f) pos cs (some r)
  | choice_second {e f : Peg} {pos : Nat} {cs : List Char} {o : Option Reading}
      (he : Runs e pos cs none) (hf : Runs f pos cs o) : Runs (.choice e f) pos cs o
  | star_step {e : Peg} {pos : Nat} {cs : List Char} {r s : Reading}
      (he : Runs e pos cs (some r)) (hs : Runs (.star e) r.pos r.rest (some s)) :
      Runs (.star e) pos cs (some (r.andThen s))
  | star_stop {e : Peg} {pos : Nat} {cs : List Char} (he : Runs e pos cs none) :
      Runs (.star e) pos cs (some ⟨pos, cs, []⟩)
  | not {e : Peg} {pos : Nat} {cs : List Char} (he : Runs e pos cs none) :
      Runs (.not e) pos cs (some ⟨pos, cs, []⟩)
  | not_fail {e : Peg} {pos : Nat} {cs : List Char} {r : Reading} (he : Runs e pos cs (some r)) :
      Runs (.not e) pos cs none
  | rule {r : Rule} {pos : Nat} {cs : List Char} {s : Reading}
      (h : Runs r.body pos cs (some s)) : Runs (.rule r) pos cs (some (s.ofRule r pos))
  | rule_fail {r : Rule} {pos : Nat} {cs : List Char} (h : Runs r.body pos cs none) :
      Runs (.rule r) pos cs none

namespace Runs

/-- An expression does no more than one thing at a place. -/
theorem unique {e : Peg} {pos : Nat} {cs : List Char} {o o' : Option Reading}
    (h : Runs e pos cs o) (h' : Runs e pos cs o') : o = o' := by
  induction h generalizing o' with
  | empty => cases h'; rfl
  | char hc =>
    cases h' with
    | char => rfl
    | char_other hc' => exact Bool.noConfusion (hc.symm.trans hc')
  | char_other hc =>
    cases h' with
    | char hc' => exact Bool.noConfusion (hc.symm.trans hc')
    | char_other => rfl
  | char_end => cases h'; rfl
  | start =>
    cases h' with
    | start => rfl
    | start_later hpos => exact absurd rfl hpos
  | start_later hpos =>
    cases h' with
    | start => exact absurd rfl hpos
    | start_later => rfl
  | stop => cases h'; rfl
  | stop_before => cases h'; rfl
  | seq _ _ ihe ihf =>
    cases h' with
    | seq he hf => cases ihe he; cases ihf hf; rfl
    | seq_first he => cases ihe he
    | seq_second he hf => cases ihe he; cases ihf hf
  | seq_first _ ihe =>
    cases h' with
    | seq he hf => cases ihe he
    | seq_first => rfl
    | seq_second => rfl
  | seq_second _ _ ihe ihf =>
    cases h' with
    | seq he hf => cases ihe he; cases ihf hf
    | seq_first => rfl
    | seq_second => rfl
  | choice_first _ ihe =>
    cases h' with
    | choice_first he => exact ihe he
    | choice_second he hf => cases ihe he
  | choice_second _ _ ihe ihf =>
    cases h' with
    | choice_first he => cases ihe he
    | choice_second he hf => exact ihf hf
  | star_step _ _ ihe ihs =>
    cases h' with
    | star_step he hs => cases ihe he; cases ihs hs; rfl
    | star_stop he => cases ihe he
  | star_stop _ ihe =>
    cases h' with
    | star_step he hs => cases ihe he
    | star_stop => rfl
  | not _ ihe =>
    cases h' with
    | not => rfl
    | not_fail he => cases ihe he
  | not_fail _ ihe =>
    cases h' with
    | not he => cases ihe he
    | not_fail => rfl
  | rule _ ih =>
    cases h' with
    | rule h => cases ih h; rfl
    | rule_fail h => cases ih h
  | rule_fail _ ih =>
    cases h' with
    | rule h => cases ih h
    | rule_fail => rfl

variable {e f : Peg} {pos : Nat} {cs : List Char} {o : Option Reading}

lemma seq_map {r : Reading} (he : Runs e pos cs (some r)) (hf : Runs f r.pos r.rest o) :
    Runs (.seq e f) pos cs (o.map r.andThen) := by
  cases o with
  | none => exact .seq_second he hf
  | some s => exact .seq he hf

lemma rule_map {r : Rule} (h : Runs r.body pos cs o) :
    Runs (.rule r) pos cs (o.map (Reading.ofRule r pos)) := by
  cases o with
  | none => exact .rule_fail h
  | some s => exact .rule h

end Runs

end BraceLisp
