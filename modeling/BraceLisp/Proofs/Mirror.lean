import BraceLisp.Proofs.Lexemes
import BraceLisp.Proofs.Reading
import BraceLisp.Proofs.WellFormed
import BraceLisp.Proofs.Occurrence
import Mathlib.Data.List.Forall2
import Mathlib.Data.List.Induction
import Mathlib.Data.Nat.Digits.Defs

/-!
What is read mirrors the tree.

Groups become lists with a cell for each child but the brackets, symbols keep their texts, and
numerals become the integers that they denote in the decimal system, however long they are
(`Tree.Mirrors`). The forms of a program are well formed, and this is all that reading relies on
(`Form.WellFormed.mirrors`). An error can only be a numeral out of range then
(`Tree.Mirrors.outOfRange_of_within`).
-/

namespace BraceLisp

open Grammar

/-! ### Numerals -/

namespace Text

def digit (c : Char) : Nat := c.toNat - '0'.toNat

/-- The number that digits denote, the last of which counts ones, the one before it tens, and so
on. -/
def decimalValue (cs : List Char) : Nat := Nat.ofDigits 10 (cs.reverse.map digit)

/-- The integer that a numeral denotes. -/
def numeralValue : List Char → Int
  | '-' :: cs => -decimalValue cs
  | cs => decimalValue cs

/-- The integer has 64 bits, the sign included. -/
def InRange (i : Int) : Prop := -2 ^ 63 ≤ i ∧ i ≤ 2 ^ 63 - 1

variable {cs : List Char} {i : Int} {n : Int64}

lemma digitsValue_eq_decimalValue (cs : List Char) : digitsValue cs = decimalValue cs := by
  induction cs using List.reverseRecOn with
  | nil => rfl
  | append_singleton cs c ih =>
    rw [digitsValue] at ih
    rw [digitsValue, List.foldl_append, List.foldl_cons, List.foldl_nil, ih, digitValue,
      decimalValue, decimalValue, List.reverse_append, List.reverse_singleton,
      List.singleton_append, List.map_cons, Nat.ofDigits_cons, digit, Nat.add_comm]

lemma int64?_eq_some_iff : int64? i = some n ↔ n.toInt = i := by
  constructor
  · intro h
    unfold int64? at h
    split at h
    · next hrange =>
      cases h
      exact Int64.toInt_ofInt_of_le (by omega) (by omega)
    · cases h
  · rintro rfl
    exact int64?_toInt n

lemma int64?_eq_none_iff : int64? i = none ↔ ¬ InRange i := by
  unfold int64? InRange
  split <;> simp <;> omega

/-- A numeral is read as the integer that it denotes, if that is in range. -/
lemma readInt64?_of_isNumeral (h : isNumeral cs = true) :
    readInt64? cs = int64? (numeralValue cs) := by
  unfold isNumeral at h
  split at h
  · next ds =>
    rw [readInt64?, natural?, if_pos h, Option.bind_some, digitsValue_eq_decimalValue,
      numeralValue]
  · next hminus =>
    have hdigit : ∀ c ∈ cs, c.isDigit = true :=
      List.all_eq_true.mp (Bool.and_eq_true_iff.mp h).2
    rw [readInt64?_of_isDigit hdigit, natural?, if_pos h, Option.bind_some,
      digitsValue_eq_decimalValue, numeralValue]
    exact hminus

end Text

/-! ### Trees -/

namespace Tree

/-- A leaf that is only a bracket. -/
def isBracket (t : Tree) : Bool := t.tag == "char"

/-- The value has the shape of the tree, without the brackets, and what the leaves stand for. -/
inductive Mirrors : Tree → Value → Prop where
  | symbol {text : String} {span : Span} :
      Mirrors (.leaf "expr|symbol" text span) (.symbol text)
  | number {text : String} {span : Span} {n : Int64} (hnumeral : isNumeral text.toList = true)
      (hvalue : n.toInt = Text.numeralValue text.toList) :
      Mirrors (.leaf "expr|number" text span) (.number n)
  | outOfRange {text : String} {span : Span} (hnumeral : isNumeral text.toList = true)
      (hvalue : ¬ Text.InRange (Text.numeralValue text.toList)) :
      Mirrors (.leaf "expr|number" text span) (.error "invalid number")
  | sexpr {tag : String} {children : List Tree} {span : Span} {cells : List Value}
      (htag : tag = rootTag ∨ tag = Form.groupTag .round)
      (hcells : List.Forall₂ Mirrors (children.filter (!·.isBracket)) cells) :
      Mirrors (.branch tag children span) (.sexpr cells)
  | qexpr {children : List Tree} {span : Span} {cells : List Value}
      (hcells : List.Forall₂ Mirrors (children.filter (!·.isBracket)) cells) :
      Mirrors (.branch (Form.groupTag .curly) children span) (.qexpr cells)

end Tree

namespace Form

variable {f : Form} {fs : List Form}

lemma isBracket_toTree (f : Form) : f.toTree.isBracket = false := by
  cases f with
  | group kind span members => cases kind <;> rfl
  | _ => rfl

lemma toTrees_eq_map (fs : List Form) : toTrees fs = fs.map toTree := by
  induction fs with
  | nil => rfl
  | cons f fs ih => rw [toTrees, ih, List.map_cons]

/-- No member of a group is a bracket. -/
lemma filter_toTrees (fs : List Form) : (toTrees fs).filter (!·.isBracket) = toTrees fs := by
  rw [toTrees_eq_map, List.filter_map, List.filter_eq_self.mpr fun f _ => ?_]
  simp [isBracket_toTree]

lemma filter_bracketed (b : Bracket) (start stop : Nat) (fs : List Form) :
    (bracketLeaf b.opening start :: (toTrees fs ++ [bracketLeaf b.closing stop])).filter
      (!·.isBracket) = toTrees fs := by
  have hleaf (c : Char) (start : Nat) : (bracketLeaf c start).isBracket = true := rfl
  rw [List.filter_cons_of_neg (by simp [hleaf]), List.filter_append, filter_toTrees,
    List.filter_cons_of_neg (by simp [hleaf]), List.filter_nil, List.append_nil]

lemma forall₂_mirrors (h : ∀ f ∈ fs, f.toTree.Mirrors f.value) :
    List.Forall₂ Tree.Mirrors (toTrees fs) (values fs) := by
  rw [toTrees_eq_map, values_eq_map, List.forall₂_map_left_iff, List.forall₂_map_right_iff,
    List.forall₂_same]
  exact h

/-- A well-formed form reads as what mirrors its tree. -/
lemma WellFormed.mirrors (h : f.WellFormed) : f.toTree.Mirrors f.value := by
  induction h with
  | @number span text hnumeral =>
    rw [value, Value.ofNumeral, Option.bind_some, Text.readInt64?_of_isNumeral hnumeral]
    cases hn : Text.int64? (Text.numeralValue text.toList) with
    | none => exact .outOfRange hnumeral (Text.int64?_eq_none_iff.mp hn)
    | some n => exact .number hnumeral (Text.int64?_eq_some_iff.mp hn)
  | symbol => exact .symbol
  | @group kind span members _ ih =>
    have hcells := forall₂_mirrors ih
    rw [← filter_bracketed kind span.start (span.stop - 1)] at hcells
    cases kind with
    | round => exact .sexpr (Or.inr rfl) hcells
    | curly => exact .qexpr hcells

end Form

/-! ### Errors -/

namespace Tree

mutual

lemma map_snd_nodesAt (depth depth' : Nat) :
    ∀ t : Tree, (t.nodesAt depth).map Prod.snd = (t.nodesAt depth').map Prod.snd
  | ⟨tag, text, children, span⟩ => by
    rw [nodesAt, nodesAt, List.map_cons, List.map_cons,
      map_snd_nodesAllAt (depth + 1) (depth' + 1) children]

lemma map_snd_nodesAllAt (depth depth' : Nat) :
    ∀ ts : List Tree, (nodesAllAt depth ts).map Prod.snd = (nodesAllAt depth' ts).map Prod.snd
  | [] => rfl
  | t :: ts => by
    rw [nodesAllAt, nodesAllAt, List.map_append, List.map_append,
      map_snd_nodesAt depth depth' t, map_snd_nodesAllAt depth depth' ts]

end

lemma mem_nodesAllAt {n : Nat × Tree} {t : Tree} {ts : List Tree} {depth : Nat} (ht : t ∈ ts)
    (hn : n ∈ t.nodesAt depth) : n ∈ nodesAllAt depth ts := by
  induction ts with
  | nil => cases ht
  | cons u ts ih =>
    rw [nodesAllAt, List.mem_append]
    rcases List.mem_cons.mp ht with rfl | ht
    · exact Or.inl hn
    · exact Or.inr (ih ht)

/-- The leaves of a child are leaves of its parent. -/
lemma mem_leaves_of_mem_children {tag : String} {children : List Tree} {span : Span}
    {l child : Tree} (hchild : child ∈ children) (hl : l ∈ child.leaves) :
    l ∈ (branch tag children span).leaves := by
  rw [leaves, nodes, leavesOf, map_snd_nodesAt 0 1] at hl
  obtain ⟨hmem, htext⟩ := List.mem_filter.mp hl
  obtain ⟨n, hn, rfl⟩ := List.mem_map.mp hmem
  refine List.mem_filter.mpr ⟨List.mem_map_of_mem ?_, htext⟩
  exact List.mem_cons_of_mem _ (mem_nodesAllAt hchild hn)

/-- Each cell mirrors a child. -/
lemma exists_child {ts : List Tree} {cells : List Value} {c : Value}
    (h : List.Forall₂ Mirrors (ts.filter (!·.isBracket)) cells) (hc : c ∈ cells) :
    ∃ t ∈ ts, t.Mirrors c := by
  obtain ⟨i, hi, rfl⟩ := List.getElem_of_mem hc
  obtain ⟨hlength, hget⟩ := List.forall₂_iff_get.mp h
  have hi' : i < (ts.filter (!·.isBracket)).length := by omega
  exact ⟨_, (List.mem_filter.mp (List.getElem_mem hi')).1, hget i hi' hi⟩

/-- One of the leaves is a numeral that is out of range. -/
def HasNumberOutOfRange (t : Tree) : Prop :=
  ∃ text span, leaf "expr|number" text span ∈ t.leaves ∧
    ¬ Text.InRange (Text.numeralValue text.toList)

lemma HasNumberOutOfRange.branch {tag : String} {children : List Tree} {span : Span} {child : Tree}
    (hchild : child ∈ children) (h : child.HasNumberOutOfRange) :
    (branch tag children span).HasNumberOutOfRange := by
  obtain ⟨text, span, hl, hvalue⟩ := h
  exact ⟨text, span, mem_leaves_of_mem_children hchild hl, hvalue⟩

/-- An error in what mirrors a tree is a numeral that is out of range. -/
lemma Mirrors.outOfRange_of_within {message : String} {t : Tree} {v : Value} (h : t.Mirrors v)
    (herror : (Value.error message).Within v) :
    message = "invalid number" ∧ t.HasNumberOutOfRange := by
  induction herror generalizing t with
  | self =>
    cases h with
    | @outOfRange text span _ hvalue =>
      exact ⟨rfl, text, span, List.mem_singleton_self _, hvalue⟩
  | sexpr hc _ ih =>
    cases h with
    | sexpr _ hcells =>
      obtain ⟨child, hchild, hmirrors⟩ := exists_child hcells hc
      exact (ih hmirrors).imp_right (.branch hchild)
  | qexpr hc _ ih =>
    cases h with
    | qexpr hcells =>
      obtain ⟨child, hchild, hmirrors⟩ := exists_child hcells hc
      exact (ih hmirrors).imp_right (.branch hchild)
  | body => nomatch h
  | captured => nomatch h

end Tree

/-- **What is read mirrors the tree.** The tree of a source that is parsed reads as a value of the
same shape: lists for the root and the groups, with one cell for each child that is no bracket,
symbols by their texts, and numbers by their exact decimal values. Only a number out of range reads
as an error. -/
theorem reading_mirrors_tree {source : String} {limit : Nat} {t : Tree}
    (h : Tree.parse source limit = .ok t) :
    t.Mirrors (.ofTree t) ∧
    ∀ message, (Value.error message).Within (.ofTree t) →
      message = "invalid number" ∧ t.HasNumberOutOfRange := by
  obtain ⟨p, hp, rfl⟩ := Tree.parse_eq_ok.mp h
  have hforms := Program.wellFormed_of_ofChars (Program.parse_eq_ok.mp hp).2
  have hmirrors : p.toTree.Mirrors (.ofTree p.toTree) := by
    rw [Value.ofTree_program]
    refine .sexpr (Or.inl rfl) ?_
    rw [Form.filter_toTrees]
    exact Form.forall₂_mirrors fun f hf => (hforms f hf).mirrors
  exact ⟨hmirrors, fun message => hmirrors.outOfRange_of_within⟩

theorem reading_mirrors_tree_limits :
    ∃ t, Tree.parse "\x7b-0 007\x7d -9223372036854775809" 1 = .ok t ∧ t.Mirrors (.ofTree t) ∧
      (Value.error "invalid number").Within (.ofTree t) ∧ t.HasNumberOutOfRange := by
  let p : Program := ⟨[.group .curly ⟨0, 8⟩ [.number ⟨1, 3⟩ "-0", .number ⟨4, 7⟩ "007"],
    .number ⟨9, 29⟩ "-9223372036854775809"], 29⟩
  have h : Tree.parse "\x7b-0 007\x7d -9223372036854775809" 1 = .ok p.toTree := rfl
  have hvalue : Value.ofTree p.toTree =
      .sexpr [.qexpr [.number 0, .number 7], .error "invalid number"] := by
    rw [Value.ofTree_program]
    rfl
  have herror : (Value.error "invalid number").Within (.ofTree p.toTree) := by
    rw [hvalue]
    exact .sexpr (List.mem_cons_of_mem _ List.mem_cons_self) .self
  obtain ⟨hmirrors, hleaf⟩ := reading_mirrors_tree h
  exact ⟨_, h, hmirrors, herror, (hleaf _ herror).2⟩

end BraceLisp
