import BraceLisp.Lexeme
import BraceLisp.Proofs.Tokens
import Mathlib.Data.List.TakeWhile

/-!
The longest match at the start of a text.

At a bracket and at a semicolon one kind of lexeme matches alone. At a word there are two: a symbol
reaches to its end, and a number does so exactly if the word is a numeral (`reach_number_eq_iff`).
What follows the line that a text ends in has no influence (`first_append`).
-/

namespace BraceLisp

open Grammar

namespace Text

variable {p : Char → Bool} {cs rest : List Char}

lemma takeWhile_append_of_stops (h : Stops p rest) : (cs ++ rest).takeWhile p = cs.takeWhile p := by
  have hrest : rest.takeWhile p = [] := by
    cases rest with
    | nil => rfl
    | cons c rest => rw [List.takeWhile_cons, Text.stops_cons.mp h]; rfl
  rw [List.takeWhile_append, hrest]
  split
  · next hlength => rw [List.append_nil, (List.takeWhile_prefix p).eq_of_length hlength]
  · rfl

lemma length_takeWhile_eq_iff : (cs.takeWhile p).length = cs.length ↔ cs.all p = true := by
  rw [List.all_eq_true, ← List.takeWhile_eq_self_iff]
  exact ⟨(List.takeWhile_prefix p).eq_of_length, congrArg List.length⟩

end Text

namespace Lexeme

variable {cs w rest : List Char} {c : Char}

namespace Kind

lemma oneIf_eq_zero {d : Char} (h : c ≠ d) : oneIf d (c :: cs) = 0 := by
  simp [oneIf, h]

lemma oneIf_le_length (c : Char) (cs : List Char) : oneIf c cs ≤ cs.length := by
  cases cs with
  | nil => simp [oneIf]
  | cons d cs =>
    unfold oneIf
    split <;> simp

lemma oneIf_append (hcs : cs ≠ []) : oneIf c (cs ++ rest) = oneIf c cs := by
  cases cs with
  | nil => exact absurd rfl hcs
  | cons d cs => rfl

/-- A numeral is a run of digits after the sign. -/
lemma isNumeral_eq (w : List Char) :
    isNumeral w = (!(w.drop (oneIf '-' w)).isEmpty && (w.drop (oneIf '-' w)).all Char.isDigit) := by
  cases w with
  | nil => rfl
  | cons c w =>
    by_cases hc : c = '-'
    · subst hc
      rfl
    · rw [oneIf_eq_zero hc, List.drop_zero]
      unfold isNumeral
      split
      · next heq => exact absurd (List.cons.inj heq).1 hc
      · rfl

lemma reach_number_append (hcs : cs ≠ []) (hrest : Text.Stops isSymbolChar rest) :
    number.reach (cs ++ rest) = number.reach cs := by
  have hdigits : Text.Stops Char.isDigit rest := hrest.mono fun _ => isSymbolChar_of_isDigit
  rw [reach, reach, oneIf_append hcs, List.drop_append_of_le_length (oneIf_le_length _ _),
    Text.takeWhile_append_of_stops hdigits]

lemma reach_number_le (cs : List Char) : number.reach cs ≤ cs.length := by
  have hsign := oneIf_le_length '-' cs
  have hdigits := (List.takeWhile_prefix (p := Char.isDigit)
    (l := cs.drop (oneIf '-' cs))).length_le
  rw [List.length_drop] at hdigits
  rw [reach]
  split <;> omega

/-- A number reaches to the end of a word exactly if the word is a numeral. -/
lemma reach_number_eq_iff (hw : w ≠ []) : number.reach w = w.length ↔ isNumeral w = true := by
  have hpos := List.length_pos_iff.mpr hw
  have hsign := oneIf_le_length '-' w
  rw [isNumeral_eq, Bool.and_eq_true, Bool.not_eq_true', List.isEmpty_eq_false_iff,
    ← List.length_pos_iff, ← Text.length_takeWhile_eq_iff, List.length_drop, reach]
  split <;> omega

lemma reach_le_length (k : Kind) : k.reach cs ≤ cs.length := by
  cases k with
  | opening b => exact oneIf_le_length _ _
  | closing b => exact oneIf_le_length _ _
  | comment =>
    rw [reach]
    split
    · exact (List.takeWhile_prefix _).length_le
    · exact Nat.zero_le _
  | number => exact reach_number_le cs
  | symbol => exact (List.takeWhile_prefix _).length_le
  | invalid => exact Nat.zero_le _

/-- No lexeme goes on where a line ends. -/
lemma reach_append (hcs : cs ≠ []) (hline : Text.Stops (· != '\n') rest)
    (hword : Text.Stops isSymbolChar rest) (k : Kind) : k.reach (cs ++ rest) = k.reach cs := by
  cases k with
  | opening b => exact oneIf_append hcs
  | closing b => exact oneIf_append hcs
  | comment =>
    obtain ⟨c, cs, rfl⟩ := List.exists_cons_of_ne_nil hcs
    rw [reach, reach, Text.takeWhile_append_of_stops hline]
    rfl
  | number => exact reach_number_append hcs hword
  | symbol => rw [reach, reach, Text.takeWhile_append_of_stops hword]
  | invalid => rfl

/-! ### The longest of several -/

variable {ks : List Kind} {best : Kind × Nat}

lemma longest_congr {ds : List Char} (h : ∀ k : Kind, k.reach cs = k.reach ds) :
    longest cs best ks = longest ds best ks := by
  induction ks generalizing best with
  | nil => rfl
  | cons k ks ih => rw [longest, longest, h, ih]

lemma longest_le_length (h : best.2 ≤ cs.length) : (longest cs best ks).2 ≤ cs.length := by
  induction ks generalizing best with
  | nil => exact h
  | cons k ks ih =>
    rw [longest]
    split
    · exact ih k.reach_le_length
    · exact ih h

/-- A kind that does not match is passed over. -/
lemma longest_cons_of_reach_eq_zero {k : Kind} (h : k.reach cs = 0) :
    longest cs best (k :: ks) = longest cs best ks := by
  rw [longest, h, if_neg (Nat.not_lt_zero _)]

end Kind

open Kind

lemma first_eq {k : Kind} {n : Nat} (h : longest cs (.invalid, 0) Kind.all = (k, n)) (hn : 0 < n) :
    first cs = (k, n) := by
  rw [first, h]
  exact congrArg (k, ·) (Nat.max_eq_left hn)

lemma first_opening (b : Bracket) (cs : List Char) : first (b.opening :: cs) = (.opening b, 1) := by
  cases b <;> simp [first, Kind.all, longest, reach, oneIf, Bracket.opening, Bracket.closing,
    isSymbolChar]

lemma first_closing (b : Bracket) (cs : List Char) : first (b.closing :: cs) = (.closing b, 1) := by
  cases b <;> simp [first, Kind.all, longest, reach, oneIf, Bracket.opening, Bracket.closing,
    isSymbolChar]

lemma first_comment {body : List Char} (hbody : ∀ c ∈ body, (c != '\n') = true)
    (hend : Text.Stops (· != '\n') rest) :
    first (';' :: (body ++ rest)) = (.comment, body.length + 1) := by
  have hline : (body ++ rest).takeWhile (· != '\n') = body := by
    rw [Text.takeWhile_append_of_stops hend, List.takeWhile_eq_self_iff.mpr hbody]
  simp [first, Kind.all, longest, reach, oneIf, Bracket.opening, Bracket.closing, isSymbolChar,
    hline]

/-- At a word two kinds match at most. -/
lemma longest_all_of_isWord (hw : IsWord w) :
    longest (w ++ rest) (.invalid, 0) Kind.all =
      longest (w ++ rest) (.invalid, 0) [.number, .symbol] := by
  obtain ⟨c, cs, rfl⟩ := List.exists_cons_of_ne_nil hw.1
  have hc := hw.2 c List.mem_cons_self
  have hopening (b : Bracket) : (opening b).reach (c :: cs ++ rest) = 0 :=
    oneIf_eq_zero (ne_of_isSymbolChar hc b.isSymbolChar_opening)
  have hclosing (b : Bracket) : (closing b).reach (c :: cs ++ rest) = 0 :=
    oneIf_eq_zero (ne_of_isSymbolChar hc b.isSymbolChar_closing)
  have hcomment : comment.reach (c :: cs ++ rest) = 0 := by
    have hsemicolon : c ≠ ';' := ne_of_isSymbolChar hc rfl
    simp [reach, hsemicolon]
  rw [Kind.all, longest_cons_of_reach_eq_zero (hopening _),
    longest_cons_of_reach_eq_zero (hclosing _), longest_cons_of_reach_eq_zero (hopening _),
    longest_cons_of_reach_eq_zero (hclosing _), longest_cons_of_reach_eq_zero hcomment]

/-- At a word a symbol reaches to the end, and a number is preferred if it does so too. -/
lemma first_word (hw : IsWord w) (hrest : Text.Stops isSymbolChar rest) :
    first (w ++ rest) = (if isNumeral w then .number else .symbol, w.length) := by
  have hsymbol : symbol.reach (w ++ rest) = w.length := by
    rw [reach, Text.takeWhile_append_of_stops hrest, List.takeWhile_eq_self_iff.mpr hw.2]
  have hnumber : number.reach (w ++ rest) = number.reach w := reach_number_append hw.1 hrest
  have hpos : 0 < w.length := List.length_pos_iff.mpr hw.1
  refine first_eq ?_ hpos
  rw [longest_all_of_isWord hw, longest, longest, longest, hnumber, hsymbol]
  cases hnumeral : isNumeral w with
  | true =>
    rw [(reach_number_eq_iff hw.1).mpr hnumeral]
    simp [hpos]
  | false =>
    have hlt : number.reach w < w.length := by
      refine Nat.lt_of_le_of_ne (reach_number_le w) fun heq => ?_
      rw [(reach_number_eq_iff hw.1).mp heq] at hnumeral
      cases hnumeral
    -- the number may match a part of the word, but the symbol reaches further
    rw [if_pos]
    · rfl
    · split
      · exact hlt
      · exact hpos

/-- A lexeme has one character or more, and none beyond the end of the text. -/
lemma exists_of_first {k : Kind} {n : Nat} (h : first (c :: cs) = (k, n)) :
    ∃ m, n = m + 1 ∧ m ≤ cs.length := by
  have hn : n = max (longest (c :: cs) (.invalid, 0) Kind.all).2 1 :=
    (congrArg Prod.snd h).symm
  have hle : (longest (c :: cs) (.invalid, 0) Kind.all).2 ≤ cs.length + 1 :=
    longest_le_length (Nat.zero_le _)
  exact ⟨n - 1, by omega, by omega⟩

/-- What follows the end of a line has no influence on the lexemes before it. -/
lemma first_append (hcs : cs ≠ []) (hline : Text.Stops (· != '\n') rest)
    (hword : Text.Stops isSymbolChar rest) : first (cs ++ rest) = first cs := by
  rw [first, first, longest_congr (reach_append hcs hline hword)]

end Lexeme

end BraceLisp
