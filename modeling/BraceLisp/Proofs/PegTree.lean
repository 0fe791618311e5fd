import BraceLisp.Proofs.PegTokens

/-!
Syntax trees of what the grammar has read.

A rule that matched becomes a node, with the part of the source that it covers as the text of a
leaf. Where the forms come from tokens of the source, these are the trees of the forms
(`Groups.toTree_toPair`).
-/

namespace BraceLisp

open Grammar

namespace Text

lemma dropBytes_append (cs ds : List Char) : dropBytes (utf8Length cs) (cs ++ ds) = ds := by
  induction cs with
  | nil => rw [utf8Length_nil, List.nil_append, dropBytes]
  | cons c cs ih =>
    obtain ⟨n, hn⟩ := Nat.exists_eq_add_one.mpr c.utf8Size_pos
    have hlength : utf8Length (c :: cs) = n + utf8Length cs + 1 := by
      rw [utf8Length_cons, hn]
      omega
    have hrest : n + utf8Length cs + 1 - c.utf8Size = utf8Length cs := by omega
    rw [hlength, List.cons_append, dropBytes, hrest, ih]

lemma takeBytes_append (cs ds : List Char) : takeBytes (utf8Length cs) (cs ++ ds) = cs := by
  induction cs with
  | nil => cases ds <;> rfl
  | cons c cs ih =>
    obtain ⟨n, hn⟩ := Nat.exists_eq_add_one.mpr c.utf8Size_pos
    have hlength : utf8Length (c :: cs) = n + utf8Length cs + 1 := by
      rw [utf8Length_cons, hn]
      omega
    have hrest : n + utf8Length cs + 1 - c.utf8Size = utf8Length cs := by omega
    rw [hlength, List.cons_append, takeBytes, hrest, ih]

/-- The slice between the offsets of a part of a text is that part. -/
lemma slice_append (before cs after : List Char) :
    slice (utf8Length before) (utf8Length before + utf8Length cs) (before ++ (cs ++ after)) =
      cs := by
  rw [slice, Nat.add_sub_cancel_left, dropBytes_append, takeBytes_append]

end Text

/-- The offset of a token is where its characters stand in the source. -/
def Token.Placed.StandsIn (source : List Char) (t : Token.Placed) : Prop :=
  Text.slice t.start (t.start + Text.utf8Length t.token.chars) source = t.token.chars

lemma Lexes.standsIn {pos stop : Nat} {cs rest : List Char} {ts : List Token.Placed}
    (h : Lexes pos cs ts stop rest) (before : List Char) (hpos : pos = Text.utf8Length before) :
    ∀ t ∈ ts, t.StandsIn (before ++ cs) := by
  induction h generalizing before with
  | nil => exact nofun
  | @token pos _ g cs _ t ts _ _ _ ih =>
    have hstart : pos + Text.utf8Length g = Text.utf8Length (before ++ g) := by
      rw [Text.utf8Length_append, hpos]
    intro t' ht'
    rcases List.mem_cons.mp ht' with rfl | ht'
    · rw [Token.Placed.StandsIn, hstart, ← List.append_assoc]
      exact Text.slice_append _ _ _
    · have hrest := ih (before ++ g ++ t.chars) (by rw [hstart, ← Text.utf8Length_append]) t' ht'
      simpa using hrest

namespace Pair

mutual

/-- The node of a rule that matched. -/
def toTree (source : List Char) : Pair → Tree
  | ⟨rule, span, children⟩ =>
    let text := String.ofList (Text.slice span.start span.stop source)
    match rule with
    | .program => .branch rootTag (toTrees source children) span
    | .group b => .branch (Form.groupTag b) (toTrees source children) span
    | .number => .leaf "expr|number" text span
    | .symbol => .leaf "expr|symbol" text span
    | .opening _ => .leaf "char" text span
    | .closing _ => .leaf "char" text span
    | _ => .leaf "regex" text span

/-- The end of the input has no node. -/
def toTrees (source : List Char) : List Pair → List Tree
  | [] => []
  | p :: ps =>
    if p.rule = .endOfInput then toTrees source ps
    else p.toTree source :: toTrees source ps

end

mutual

/-- The matches that a pair is made of, outer ones first. -/
def matchesAt (depth : Nat) : Pair → List Match
  | ⟨rule, span, children⟩ => ⟨depth, rule, span⟩ :: allMatchesAt (depth + 1) children

def allMatchesAt (depth : Nat) : List Pair → List Match
  | [] => []
  | p :: ps => p.matchesAt depth ++ allMatchesAt depth ps

end

lemma toTrees_append (source : List Char) (ps qs : List Pair) :
    toTrees source (ps ++ qs) = toTrees source ps ++ toTrees source qs := by
  induction ps with
  | nil => rfl
  | cons p ps ih =>
    rw [List.cons_append, toTrees, toTrees, ih]
    split <;> rfl

lemma allMatchesAt_append (depth : Nat) (ps qs : List Pair) :
    allMatchesAt depth (ps ++ qs) = allMatchesAt depth ps ++ allMatchesAt depth qs := by
  induction ps with
  | nil => rfl
  | cons p ps ih => rw [List.cons_append, allMatchesAt, allMatchesAt, ih, List.append_assoc]

end Pair

/-- The rules that match where a program is read. -/
def Program.toPair (p : Program) : Pair :=
  ⟨.program, ⟨0, p.size⟩, Form.toPairs p.forms ++ [⟨.endOfInput, ⟨p.size, p.size⟩, []⟩]⟩

namespace Form

mutual

lemma matchesAt_toPair (depth : Nat) : ∀ f : Form, f.toPair.matchesAt depth = f.matchesAt depth
  | number span text => rfl
  | symbol span text => rfl
  | group kind span members => by
    rw [toPair, Pair.matchesAt, Pair.allMatchesAt, Pair.allMatchesAt_append,
      allMatchesAt_toPairs (depth + 1) members]
    rfl

lemma allMatchesAt_toPairs (depth : Nat) :
    ∀ fs : List Form, Pair.allMatchesAt depth (toPairs fs) = allMatchesAt depth fs
  | [] => rfl
  | f :: fs => by
    rw [toPairs, Pair.allMatchesAt, matchesAt_toPair depth f, allMatchesAt_toPairs depth fs]
    rfl

end

end Form

lemma Program.matchesAt_toPair (p : Program) : p.toPair.matchesAt 0 = p.allMatches := by
  rw [toPair, Pair.matchesAt, Pair.allMatchesAt_append, Form.allMatchesAt_toPairs]
  rfl

/-! ### Trees of forms -/

namespace Pair

variable {source : List Char}

lemma toTrees_cons_toPair (f : Form) (ps : List Pair) :
    toTrees source (f.toPair :: ps) = f.toPair.toTree source :: toTrees source ps := by
  cases f <;> rfl

lemma toTree_word {start : Nat} {cs : List Char}
    (h : Token.Placed.StandsIn source ⟨start, .word cs⟩) :
    (Form.word start cs).toPair.toTree source = (Form.word start cs).toTree := by
  have htext : Text.slice start (start + Text.utf8Length cs) source = cs := h
  unfold Form.word
  split <;> simp [Form.toPair, toTree, Form.toTree, htext]

lemma toTree_group {b : Bracket} {start stop : Nat} {ms : List Form}
    (hopening : Token.Placed.StandsIn source ⟨start, .opening b⟩)
    (hclosing : Token.Placed.StandsIn source ⟨stop, .closing b⟩)
    (hms : toTrees source (Form.toPairs ms) = Form.toTrees ms) :
    (Form.group b ⟨start, stop + 1⟩ ms).toPair.toTree source =
      (Form.group b ⟨start, stop + 1⟩ ms).toTree := by
  rw [Token.Placed.StandsIn, Token.utf8Length_opening] at hopening
  rw [Token.Placed.StandsIn, Token.utf8Length_closing] at hclosing
  have hleaf (c : Char) : String.ofList [c] = String.singleton c := by
    rw [String.singleton_eq_ofList]
  have hchildren : toTrees source (⟨.opening b, ⟨start, start + 1⟩, []⟩ ::
      (Form.toPairs ms ++ [⟨.closing b, ⟨stop, stop + 1⟩, []⟩])) =
      Form.bracketLeaf b.opening start ::
        (Form.toTrees ms ++ [Form.bracketLeaf b.closing stop]) := by
    simp [toTrees, toTrees_append, hms, toTree, hopening, hclosing, Token.chars, hleaf,
      Form.bracketLeaf]
  rw [Form.toPair, toTree, Form.toTree]
  exact congrArg (Tree.branch (Form.groupTag b) · ⟨start, stop + 1⟩) hchildren

end Pair

/-- What is read of tokens that stand in a source has the trees of their forms. -/
lemma Groups.toTrees_toPairs {source : List Char} {ts : List Token.Placed} {fs : List Form}
    (h : Groups ts fs) (hts : ∀ t ∈ ts, t.StandsIn source) :
    Pair.toTrees source (Form.toPairs fs) = Form.toTrees fs := by
  induction h with
  | nil => rfl
  | word _ ih =>
    obtain ⟨hword, hts⟩ := List.forall_mem_cons.mp hts
    rw [Form.toPairs, Pair.toTrees_cons_toPair, Pair.toTree_word hword, ih hts, Form.toTrees]
  | group _ _ ihinner ihrest =>
    obtain ⟨hopening, hts⟩ := List.forall_mem_cons.mp hts
    obtain ⟨hinner, hts⟩ := List.forall_mem_append.mp hts
    obtain ⟨hclosing, hts⟩ := List.forall_mem_cons.mp hts
    rw [Form.toPairs, Pair.toTrees_cons_toPair,
      Pair.toTree_group hopening hclosing (ihinner hinner), ihrest hts, Form.toTrees]

lemma Groups.toTree_toPair {source : List Char} {ts : List Token.Placed} {p : Program}
    (h : Groups ts p.forms) (hts : ∀ t ∈ ts, t.StandsIn source) :
    p.toPair.toTree source = p.toTree := by
  rw [Program.toPair, Pair.toTree, Pair.toTrees_append, h.toTrees_toPairs hts]
  simp [Pair.toTrees, Program.toTree]

end BraceLisp
