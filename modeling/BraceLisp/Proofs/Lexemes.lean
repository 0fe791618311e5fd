import BraceLisp.Proofs.Acceptance
import BraceLisp.Proofs.LongestMatch

/-!
The lexemes of a program.

Lexemes are found without the grammar. On a text that is made of tokens they are those tokens, and
comments between them (`Lexes.tokens_scanFrom`); and the tokens of a program are the leaves of its
tree (`Groups.leaves`). So both ways of reading a source see the same (`lexemes_are_leaves`).
-/

namespace BraceLisp

open Grammar

/-- The kind of lexeme that a token is. -/
def Token.kind : Token → Lexeme.Kind
  | opening b => .opening b
  | closing b => .closing b
  | word cs => if isNumeral cs then .number else .symbol

lemma Token.kind_ne (t : Token) : t.kind ≠ .comment ∧ t.kind ≠ .invalid := by
  cases t with
  | word cs =>
    rw [kind]
    split <;> exact ⟨nofun, nofun⟩
  | _ => exact ⟨nofun, nofun⟩

def Token.Placed.lexeme (t : Token.Placed) : Lexeme :=
  ⟨t.token.kind, ⟨t.start, t.start + Text.utf8Length t.token.chars⟩⟩

namespace Tree

/-- Those of some nodes that carry a text. -/
def leavesOf (ns : List (Nat × Tree)) : List Tree := (ns.map Prod.snd).filter (·.text.isSome)

/-- The leaves of a tree, from left to right. -/
def leaves (t : Tree) : List Tree := leavesOf t.nodes

/-- The kind of lexeme that a leaf stands for. A leaf of a bracket has the bracket as its text. -/
def lexemeKind? (t : Tree) : Option Lexeme.Kind :=
  if t.tag = "expr|number" then some .number
  else if t.tag = "expr|symbol" then some .symbol
  else if t.tag = "char" then
    match t.text.map String.toList with
    | some [c] => (Bracket.ofOpening? c).map .opening <|> (Bracket.ofClosing? c).map .closing
    | _ => none
  else none

def lexeme? (t : Tree) : Option Lexeme := t.lexemeKind?.map (⟨·, t.span⟩)

end Tree

/-! ### Lexemes are tokens -/

namespace Lexeme

/-- The lexemes that are not comments. -/
def tokens (ls : List Lexeme) : List Lexeme := ls.filter (·.kind ≠ .comment)

variable {pos : Nat} {cs g w rest : List Char} {c : Char}

lemma isSpace_of_isBlank (h : isBlank c = true) : isSpace c = true := by
  rw [isSpace, show (c = ' ' || c = '\t' || c = '\r' || c = '\n') = true from h, Bool.true_or]

lemma isSpace_of_isSymbolChar (h : isSymbolChar c = true) : isSpace c = false := by
  rw [Bool.eq_false_iff]
  intro hspace
  simp only [isSpace, Bool.or_eq_true, decide_eq_true_eq] at hspace
  rcases hspace with (((rfl | rfl) | rfl) | rfl) | rfl <;> cases h

lemma scanFrom_nil : scanFrom pos [] = [] := by rw [scanFrom]

lemma scanFrom_space (h : isSpace c = true) :
    scanFrom pos (c :: cs) = scanFrom (pos + c.utf8Size) cs := by
  rw [scanFrom, if_pos h]

lemma scanFrom_first {k : Kind} {n : Nat} (hspace : isSpace c = false)
    (hfirst : first (c :: cs) = (k, n + 1)) :
    scanFrom pos (c :: cs) =
      ⟨k, ⟨pos, pos + Text.utf8Length (c :: cs.take n)⟩⟩ ::
        scanFrom (pos + Text.utf8Length (c :: cs.take n)) (cs.drop n) := by
  rw [scanFrom, hspace, if_neg Bool.false_ne_true, hfirst]
  rfl

/-- A text that is a lexeme at its place is read as a whole. -/
lemma scanFrom_append_of_first {k : Kind} (hspace : isSpace c = false)
    (hfirst : first (c :: (cs ++ rest)) = (k, (c :: cs).length)) :
    scanFrom pos (c :: (cs ++ rest)) =
      ⟨k, ⟨pos, pos + Text.utf8Length (c :: cs)⟩⟩ ::
        scanFrom (pos + Text.utf8Length (c :: cs)) rest := by
  rw [scanFrom_first hspace hfirst, List.take_left, List.drop_left]

/-- A gap has no lexemes other than comments. -/
lemma tokens_scanFrom_gap (pos : Nat) (hg : IsGap rest g) :
    tokens (scanFrom pos (g ++ rest)) = tokens (scanFrom (pos + Text.utf8Length g) rest) := by
  refine hg.passed_over (F := fun pos cs => tokens (scanFrom pos cs)) ?_ ?_ pos
  · intro pos c cs hc
    rw [scanFrom_space (isSpace_of_isBlank hc)]
  · intro pos body cs hbody hend
    rw [scanFrom_append_of_first rfl (first_comment hbody hend)]
    rfl

lemma scanFrom_token {t : Token} (h : t.Whole rest) :
    scanFrom pos (t.chars ++ rest) =
      Token.Placed.lexeme ⟨pos, t⟩ :: scanFrom (pos + Text.utf8Length t.chars) rest := by
  cases t with
  | opening b => exact scanFrom_append_of_first (by cases b <;> rfl) (first_opening b rest)
  | closing b => exact scanFrom_append_of_first (by cases b <;> rfl) (first_closing b rest)
  | word w =>
    obtain ⟨hw, hrest⟩ := h
    have hfirst := first_word hw hrest
    obtain ⟨c, cs, rfl⟩ := List.exists_cons_of_ne_nil hw.1
    have hspace := isSpace_of_isSymbolChar (hw.2 c List.mem_cons_self)
    exact scanFrom_append_of_first hspace hfirst

lemma tokens_cons_lexeme (t : Token.Placed) (ls : List Lexeme) :
    tokens (t.lexeme :: ls) = t.lexeme :: tokens ls :=
  List.filter_cons_of_pos (decide_eq_true t.token.kind_ne.1)

end Lexeme

/-- The lexemes of a text that is made of tokens are the tokens, and comments. -/
lemma Lexes.tokens_scanFrom {pos stop : Nat} {cs rest : List Char} {ts : List Token.Placed}
    (h : Lexes pos cs ts stop rest) (hrest : IsGap [] rest) :
    Lexeme.tokens (Lexeme.scanFrom pos cs) = ts.map Token.Placed.lexeme := by
  induction h with
  | @nil pos cs =>
    have hgap := Lexeme.tokens_scanFrom_gap pos hrest
    rwa [List.append_nil, Lexeme.scanFrom_nil] at hgap
  | @token pos _ g cs _ t ts hgap hwhole _ ih =>
    rw [Lexeme.tokens_scanFrom_gap pos hgap, Lexeme.scanFrom_token hwhole,
      Lexeme.tokens_cons_lexeme, ih hrest, List.map_cons]

/-- A text that is made of tokens has no invalid lexeme. -/
lemma Lexes.kind_ne_invalid {pos stop : Nat} {cs rest : List Char} {ts : List Token.Placed}
    (h : Lexes pos cs ts stop rest) (hrest : IsGap [] rest) :
    ∀ l ∈ Lexeme.scanFrom pos cs, l.kind ≠ .invalid := by
  intro l hl
  by_cases hcomment : l.kind = .comment
  · rw [hcomment]
    exact nofun
  · have htoken : l ∈ Lexeme.tokens (Lexeme.scanFrom pos cs) :=
      List.mem_filter.mpr ⟨hl, by simpa using hcomment⟩
    rw [h.tokens_scanFrom hrest] at htoken
    obtain ⟨t, -, rfl⟩ := List.mem_map.mp htoken
    exact t.token.kind_ne.2

/-! ### Tokens are leaves -/

namespace Tree

lemma leavesOf_append (ns ms : List (Nat × Tree)) :
    leavesOf (ns ++ ms) = leavesOf ns ++ leavesOf ms := by
  rw [leavesOf, List.map_append, List.filter_append]
  rfl

lemma nodesAllAt_append (depth : Nat) (ts us : List Tree) :
    nodesAllAt depth (ts ++ us) = nodesAllAt depth ts ++ nodesAllAt depth us := by
  induction ts with
  | nil => rfl
  | cons t ts ih => rw [List.cons_append, nodesAllAt, nodesAllAt, ih, List.append_assoc]

end Tree

namespace Token.Placed

/-- The leaf of a token. -/
def toTree (t : Token.Placed) : Tree :=
  match t.token with
  | .opening b => Form.bracketLeaf b.opening t.start
  | .closing b => Form.bracketLeaf b.closing t.start
  | .word cs => (Form.word t.start cs).toTree

lemma lexeme?_toTree (t : Token.Placed) : t.toTree.lexeme? = some t.lexeme := by
  obtain ⟨start, token⟩ := t
  cases token with
  | opening b => cases b <;> rfl
  | closing b => cases b <;> rfl
  | word cs =>
    simp only [toTree, Form.word, lexeme, Token.kind]
    split <;> rfl

lemma exists_toTree_eq_leaf (t : Token.Placed) :
    ∃ tag, (∀ b, tag ≠ Form.groupTag b) ∧ t.toTree = .leaf tag (String.ofList t.token.chars)
      ⟨t.start, t.start + Text.utf8Length t.token.chars⟩ := by
  have hchar (b : Bracket) : "char" ≠ Form.groupTag b := by cases b <;> decide
  have hnumber (b : Bracket) : "expr|number" ≠ Form.groupTag b := by cases b <;> decide
  have hsymbol (b : Bracket) : "expr|symbol" ≠ Form.groupTag b := by cases b <;> decide
  obtain ⟨start, token⟩ := t
  cases token with
  | opening b => exact ⟨"char", hchar, by cases b <;> rfl⟩
  | closing b => exact ⟨"char", hchar, by cases b <;> rfl⟩
  | word cs =>
    simp only [toTree, Form.word]
    split
    · exact ⟨"expr|number", hnumber, rfl⟩
    · exact ⟨"expr|symbol", hsymbol, rfl⟩

/-- A leaf is the only node of its tree. -/
lemma nodesAt_toTree (t : Token.Placed) (depth : Nat) :
    t.toTree.nodesAt depth = [(depth, t.toTree)] := by
  obtain ⟨tag, -, htag⟩ := t.exists_toTree_eq_leaf
  rw [htag]
  rfl

lemma leavesOf_toTree (t : Token.Placed) (depth : Nat) :
    Tree.leavesOf (t.toTree.nodesAt depth) = [t.toTree] := by
  obtain ⟨tag, -, htag⟩ := t.exists_toTree_eq_leaf
  rw [nodesAt_toTree, htag]
  rfl

end Token.Placed

lemma Form.leavesOf_group (depth : Nat) (b : Bracket) (span : Span) (ms : List Form) :
    Tree.leavesOf ((group b span ms).toTree.nodesAt depth) =
      bracketLeaf b.opening span.start ::
        (Tree.leavesOf (Tree.nodesAllAt (depth + 1) (toTrees ms)) ++
          [bracketLeaf b.closing (span.stop - 1)]) := by
  rw [toTree, Tree.branch, Tree.nodesAt, Tree.nodesAllAt, Tree.nodesAllAt_append]
  simp [Tree.leavesOf, Tree.nodesAllAt, Tree.nodesAt, bracketLeaf, Tree.leaf]

namespace Groups

variable {ts : List Token.Placed} {fs : List Form}

/-- The leaves of forms are those of the tokens that make them up. -/
lemma leavesOf (h : Groups ts fs) (depth : Nat) :
    Tree.leavesOf (Tree.nodesAllAt depth (Form.toTrees fs)) = ts.map Token.Placed.toTree := by
  induction h generalizing depth with
  | nil => rfl
  | @word start cs _ _ _ ih =>
    have hword := Token.Placed.leavesOf_toTree ⟨start, .word cs⟩ depth
    rw [Form.toTrees, Tree.nodesAllAt, Tree.leavesOf_append, ih]
    exact congrArg (· ++ _) hword
  | group _ _ ihinner ihrest =>
    rw [Form.toTrees, Tree.nodesAllAt, Tree.leavesOf_append, Form.leavesOf_group, ihinner, ihrest]
    simp [Token.Placed.toTree]

/-- The leaves of forms stand for the lexemes of the tokens. -/
lemma leaves (h : Groups ts fs) (depth : Nat) :
    (Tree.leavesOf (Tree.nodesAllAt depth (Form.toTrees fs))).map Tree.lexeme? =
      (ts.map Token.Placed.lexeme).map some := by
  rw [h.leavesOf, List.map_map, List.map_map]
  exact List.map_congr_left fun t _ => t.lexeme?_toTree

end Groups

/-- **The lexemes of a program are the leaves of its tree.** In a source that the grammar accepts no
lexeme is invalid, and the lexemes that are not comments are, in kind and place, the leaves of the
tree from left to right. -/
theorem lexemes_are_leaves {source : String} {t : Tree} (h : Accepts source t) :
    (∀ l ∈ Lexeme.scan source, l.kind ≠ .invalid) ∧
    (Lexeme.tokens (Lexeme.scan source)).map some = t.leaves.map Tree.lexeme? := by
  obtain ⟨ts, fs, ⟨stop, rest, hlexes, hrest⟩, hgroups, rfl⟩ := accepts_iff_splits.mp h
  refine ⟨hlexes.kind_ne_invalid hrest, ?_⟩
  rw [Lexeme.scan, hlexes.tokens_scanFrom hrest]
  exact (hgroups.leaves 1).symm

/-- A number, two symbols that look like numbers in part, and a bracket in a comment. -/
theorem lexemes_are_leaves_minus : ∃ t, Accepts "-1 \x7b--5 1-2\x7d\n; (" t ∧
    (∀ l ∈ Lexeme.scan "-1 \x7b--5 1-2\x7d\n; (", l.kind ≠ .invalid) ∧
    (Lexeme.tokens (Lexeme.scan "-1 \x7b--5 1-2\x7d\n; (")).map some =
      t.leaves.map Tree.lexeme? := by
  let p : Program := ⟨[.number ⟨0, 2⟩ "-1",
    .group .curly ⟨3, 12⟩ [.symbol ⟨4, 7⟩ "--5", .symbol ⟨8, 11⟩ "1-2"]], 16⟩
  have h : Accepts "-1 \x7b--5 1-2\x7d\n; (" p.toTree := accepts_iff.mpr ⟨p, rfl, rfl⟩
  exact ⟨p.toTree, h, lexemes_are_leaves h⟩

end BraceLisp
