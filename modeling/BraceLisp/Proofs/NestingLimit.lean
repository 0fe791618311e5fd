import BraceLisp.Proofs.Acceptance
import BraceLisp.Proofs.Depth

/-!
The limit on nesting.

The search for a bracket that nests too deep reads characters, and knows nothing of groups. On a
source that the grammar accepts it comes to the same as a search among the groups of the tree
(`tooDeep?_eq_find?`): both find the first of the opening brackets that lies too deep
(`Nesting.openings`). So the limit refuses the trees that nest deeper, at the leftmost group where
they do, and no others (`nesting_limit_is_exact`).
-/

namespace BraceLisp

open Grammar

namespace Tree

def isGroupTag (tag : String) : Bool :=
  tag == Form.groupTag .round || tag == Form.groupTag .curly

mutual

/-- How deep the groups of a tree nest. -/
def nesting : Tree → Nat
  | ⟨tag, _, children, _⟩ =>
    if isGroupTag tag then nestingAll children + 1 else nestingAll children

def nestingAll : List Tree → Nat
  | [] => 0
  | t :: ts => max t.nesting (nestingAll ts)

end

mutual

/-- The groups of a tree with their levels, outer ones first, where `level` groups are around the
tree. -/
def groupsAt (level : Nat) : Tree → List (Nat × Tree)
  | t@⟨tag, _, children, _⟩ =>
    if isGroupTag tag then (level + 1, t) :: groupsAllAt (level + 1) children
    else groupsAllAt level children

def groupsAllAt (level : Nat) : List Tree → List (Nat × Tree)
  | [] => []
  | t :: ts => t.groupsAt level ++ groupsAllAt level ts

end

def groups (t : Tree) : List (Nat × Tree) := t.groupsAt 0

/-- Of the groups at a level, `g` is the one that begins first. -/
def IsLeftmost (t : Tree) (level : Nat) (g : Tree) : Prop :=
  (level, g) ∈ t.groups ∧ ∀ g', (level, g') ∈ t.groups → g.span.start ≤ g'.span.start

/-! ### The levels of groups -/

lemma groupsAllAt_append (level : Nat) (ts us : List Tree) :
    groupsAllAt level (ts ++ us) = groupsAllAt level ts ++ groupsAllAt level us := by
  induction ts with
  | nil => rfl
  | cons t ts ih => rw [List.cons_append, groupsAllAt, groupsAllAt, ih, List.append_assoc]

mutual

/-- A tree nests deeper than a limit if one of its groups lies deeper. -/
lemma lt_nesting_iff (limit level : Nat) :
    ∀ t : Tree, limit < t.nesting ↔ ∃ g ∈ t.groupsAt level, level + limit < g.1
  | ⟨tag, text, children, span⟩ => by
    rw [nesting, groupsAt]
    split
    · cases limit with
      | zero => simp
      | succ limit =>
        have hchildren := lt_nestingAll_iff limit (level + 1) children
        rw [Nat.add_lt_add_iff_right, hchildren, Nat.add_right_comm level 1 limit]
        simp [Nat.add_assoc]
    · exact lt_nestingAll_iff limit level children

lemma lt_nestingAll_iff (limit level : Nat) :
    ∀ ts : List Tree, limit < nestingAll ts ↔ ∃ g ∈ groupsAllAt level ts, level + limit < g.1
  | [] => by simp [nestingAll, groupsAllAt]
  | t :: ts => by
    have hmax : limit < max t.nesting (nestingAll ts) ↔
        limit < t.nesting ∨ limit < nestingAll ts := by omega
    rw [nestingAll, groupsAllAt, hmax, lt_nesting_iff limit level t,
      lt_nestingAll_iff limit level ts]
    simp only [List.mem_append, or_and_right, exists_or]

end

/-- Where the opening bracket of a group stands, with its depth. -/
def openingPlace (g : Nat × Tree) : Nat × Nat := (g.2.span.start, g.1)

end Tree

namespace Nesting

variable {limit pos depth stop : Nat} {cs g rest : List Char} {ts us : List Token.Placed}

/-! ### The search among tokens -/

/-- The offsets of the opening brackets among tokens, each with its depth, where `depth` brackets
are open before the tokens. -/
def openings (depth : Nat) : List Token.Placed → List (Nat × Nat)
  | [] => []
  | ⟨start, .opening _⟩ :: ts => (start, depth + 1) :: openings (depth + 1) ts
  | ⟨_, .closing _⟩ :: ts => openings (depth - 1) ts
  | ⟨_, .word _⟩ :: ts => openings depth ts

lemma tooDeepFrom?_blank {c : Char} (hc : isBlank c = true) :
    tooDeepFrom? limit pos depth false (c :: cs) =
      tooDeepFrom? limit (pos + c.utf8Size) depth false cs := by
  simp only [isBlank, Bool.or_eq_true, decide_eq_true_eq] at hc
  rcases hc with ((rfl | rfl) | rfl) | rfl <;> rfl

/-- A comment ends with its line. -/
lemma tooDeepFrom?_comment {body : List Char} (hbody : ∀ c ∈ body, (c != '\n') = true)
    (hend : Text.Stops (· != '\n') cs) :
    tooDeepFrom? limit pos depth true (body ++ cs) =
      tooDeepFrom? limit (pos + Text.utf8Length body) depth false cs := by
  induction body generalizing pos with
  | nil =>
    cases cs with
    | nil => rfl
    | cons c cs =>
      have hc : c = '\n' := by simpa using hend
      subst hc
      rfl
  | cons c body ih =>
    rw [List.cons_append, tooDeepFrom?, if_pos rfl, hbody c List.mem_cons_self,
      ih fun d hd => hbody d (List.mem_cons_of_mem _ hd), Text.utf8Length_cons, Nat.add_assoc]

lemma tooDeepFrom?_gap (limit pos depth : Nat) (hg : IsGap cs g) :
    tooDeepFrom? limit pos depth false (g ++ cs) =
      tooDeepFrom? limit (pos + Text.utf8Length g) depth false cs := by
  refine hg.passed_over (F := (tooDeepFrom? limit · depth false)) ?_ ?_ pos
  · exact fun pos c cs hc => tooDeepFrom?_blank hc
  · intro pos body cs hbody hend
    have hsemicolon : tooDeepFrom? limit pos depth false (';' :: (body ++ cs)) =
        tooDeepFrom? limit (pos + ';'.utf8Size) depth true (body ++ cs) := rfl
    rw [hsemicolon, tooDeepFrom?_comment hbody hend, Text.utf8Length_cons, Nat.add_assoc]

/-- On a text that is made of tokens, the search finds the first bracket that lies too deep. -/
lemma tooDeepFrom?_lexes (h : Lexes pos cs ts stop rest) (hrest : IsGap [] rest) :
    tooDeepFrom? limit pos depth false cs = (openings depth ts).find? (limit < ·.2) := by
  induction h generalizing depth with
  | @nil pos =>
    have hgap := tooDeepFrom?_gap limit pos depth hrest
    rwa [List.append_nil] at hgap
  | @token pos _ g cs _ t ts hgap hwhole _ ih =>
    rw [tooDeepFrom?_gap limit pos depth hgap]
    cases t with
    | opening b =>
      rw [Token.utf8Length_opening] at ih
      rw [Token.chars, List.singleton_append, tooDeepFrom?_opening, ih hrest, openings,
        List.find?_cons]
      by_cases hlimit : limit < depth + 1 <;> simp [hlimit]
    | closing b =>
      rw [Token.utf8Length_closing] at ih
      rw [Token.chars, List.singleton_append, tooDeepFrom?_closing, ih hrest, openings]
    | word w =>
      have hword : Fits limit depth w := .word hwhole.1.2
      rw [Token.chars, hword, openings]
      exact ih hrest

/-- From one bracket to the next the depth grows by one at most, so no depth is left out. -/
lemma depth_of_find?_openings {o : Nat × Nat}
    (h : (openings depth ts).find? (limit < ·.2) = some o) (hdepth : depth ≤ limit) :
    o.2 = limit + 1 := by
  induction ts generalizing depth with
  | nil => cases h
  | cons t ts ih =>
    obtain ⟨start, token⟩ := t
    cases token with
    | word w => exact ih h hdepth
    | closing b => exact ih h (Nat.le_trans (Nat.sub_le depth 1) hdepth)
    | opening b =>
      rw [openings, List.find?_cons] at h
      by_cases hlimit : limit < depth + 1
      · simp only [hlimit, decide_true] at h
        cases h
        exact Nat.le_antisymm (Nat.add_le_add_right hdepth 1) hlimit
      · simp only [hlimit, decide_false] at h
        exact ih h (Nat.le_of_not_lt hlimit)

lemma openings_ordered (h : Lexes pos cs ts stop rest) (depth : Nat) :
    (∀ o ∈ openings depth ts, pos ≤ o.1) ∧ (openings depth ts).Pairwise (·.1 ≤ ·.1) := by
  induction h generalizing depth with
  | nil => exact ⟨nofun, .nil⟩
  | @token pos _ g cs _ t ts _ _ _ ih =>
    have hafter (depth : Nat) : ∀ o ∈ openings depth ts, pos + Text.utf8Length g ≤ o.1 :=
      fun o ho => Nat.le_trans (Nat.le_add_right _ _) ((ih depth).1 o ho)
    have hpos : pos ≤ pos + Text.utf8Length g := Nat.le_add_right _ _
    cases t with
    | word w => exact ⟨fun o ho => Nat.le_trans hpos (hafter _ o ho), (ih _).2⟩
    | closing b => exact ⟨fun o ho => Nat.le_trans hpos (hafter _ o ho), (ih _).2⟩
    | opening b =>
      refine ⟨fun o ho => ?_, .cons (hafter (depth + 1)) (ih (depth + 1)).2⟩
      rcases List.mem_cons.mp ho with rfl | ho
      · exact hpos
      · exact Nat.le_trans hpos (hafter _ o ho)

end Nesting

/-! ### The groups of forms -/

namespace Form

lemma groupsAt_word (level start : Nat) (cs : List Char) :
    (word start cs).toTree.groupsAt level = [] := by
  unfold word
  split <;> rfl

lemma groupsAt_group (level : Nat) (b : Bracket) (span : Span) (ms : List Form) :
    (group b span ms).toTree.groupsAt level =
      (level + 1, (group b span ms).toTree) :: Tree.groupsAllAt (level + 1) (toTrees ms) := by
  have hleaf (c : Char) (start : Nat) : (bracketLeaf c start).groupsAt (level + 1) = [] := rfl
  have htag : Tree.isGroupTag (groupTag b) = true := by cases b <;> rfl
  rw [toTree, Tree.branch, Tree.groupsAt, if_pos htag, Tree.groupsAllAt, Tree.groupsAllAt_append,
    Tree.groupsAllAt, hleaf, hleaf, Tree.groupsAllAt]
  simp

mutual

/-- The first child of a group is its opening bracket. -/
lemma head_of_mem_groupsAt (level : Nat) : ∀ (f : Form), ∀ g ∈ f.toTree.groupsAt level,
    ∃ b, g.2.tag = groupTag b ∧ g.2.children.head? = some (bracketLeaf b.opening g.2.span.start)
  | number _ _, _, hg => nomatch hg
  | symbol _ _, _, hg => nomatch hg
  | group b span ms, g, hg => by
    rw [groupsAt_group] at hg
    rcases List.mem_cons.mp hg with rfl | hg
    · exact ⟨b, rfl, rfl⟩
    · exact head_of_mem_groupsAllAt (level + 1) ms g hg

lemma head_of_mem_groupsAllAt (level : Nat) :
    ∀ (fs : List Form), ∀ g ∈ Tree.groupsAllAt level (toTrees fs),
      ∃ b, g.2.tag = groupTag b ∧ g.2.children.head? = some (bracketLeaf b.opening g.2.span.start)
  | [], _, hg => nomatch hg
  | f :: fs, g, hg => by
    rcases List.mem_append.mp hg with hg | hg
    · exact head_of_mem_groupsAt level f g hg
    · exact head_of_mem_groupsAllAt level fs g hg

end

end Form

/-- The opening brackets among tokens are those of the groups that the tokens make up. -/
lemma Nesting.openings_of_groups {ts : List Token.Placed} {fs : List Form} (h : Groups ts fs)
    (depth : Nat) (us : List Token.Placed) : openings depth (ts ++ us) =
      (Tree.groupsAllAt depth (Form.toTrees fs)).map Tree.openingPlace ++ openings depth us := by
  induction h generalizing depth us with
  | nil => rfl
  | word _ ih =>
    rw [List.cons_append, openings, ih, Form.toTrees, Tree.groupsAllAt, Form.groupsAt_word,
      List.nil_append]
  | @group b start stop inner ts ms fs _ _ ihinner ihrest =>
    rw [List.cons_append, List.append_assoc, List.cons_append, openings, ihinner, openings,
      Nat.add_sub_cancel, ihrest, Form.toTrees, Tree.groupsAllAt, Form.groupsAt_group]
    simp [Tree.openingPlace, Form.toTree, Tree.branch]

/-! ### The limit -/

lemma Tree.find?_groups_eq_none {t : Tree} {limit : Nat} :
    t.groups.find? (limit < ·.1) = none ↔ t.nesting ≤ limit := by
  have hlt := t.lt_nesting_iff limit 0
  rw [Nat.zero_add] at hlt
  rw [← Nat.not_lt, hlt, List.find?_eq_none]
  simp [Tree.groups]

namespace Grammar.Accepts

variable {source : String} {t : Tree} {limit : Nat} {g : Nat × Tree}

lemma exists_openings (h : Accepts source t) :
    ∃ ts stop rest, Lexes 0 source.toList ts stop rest ∧ IsGap [] rest ∧
      Nesting.openings 0 ts = t.groups.map Tree.openingPlace := by
  obtain ⟨ts, fs, ⟨stop, rest, hlexes, hrest⟩, hgroups, rfl⟩ := accepts_iff_splits.mp h
  refine ⟨ts, stop, rest, hlexes, hrest, ?_⟩
  have hopenings := Nesting.openings_of_groups hgroups 0 []
  rwa [List.append_nil, Nesting.openings, List.append_nil] at hopenings

/-- The search finds the opening bracket of the first group that lies too deep. -/
lemma tooDeep?_eq_find? (h : Accepts source t) (limit : Nat) :
    Nesting.tooDeep? limit source.toList =
      (t.groups.find? (limit < ·.1)).map Tree.openingPlace := by
  obtain ⟨ts, stop, rest, hlexes, hrest, hopenings⟩ := h.exists_openings
  rw [Nesting.tooDeep?, Nesting.tooDeepFrom?_lexes hlexes hrest, hopenings, List.find?_map]
  rfl

/-- The first group that lies too deep is the leftmost one of its level, the first level beyond the
limit. -/
lemma isLeftmost_of_find? (h : Accepts source t) (hg : t.groups.find? (limit < ·.1) = some g) :
    g.1 = limit + 1 ∧ t.IsLeftmost g.1 g.2 := by
  obtain ⟨ts, stop, rest, hlexes, -, hopenings⟩ := h.exists_openings
  have hlevel : g.1 = limit + 1 := by
    have hopening : (Nesting.openings 0 ts).find? (limit < ·.2) = some (Tree.openingPlace g) := by
      rw [hopenings, List.find?_map]
      exact congrArg (Option.map Tree.openingPlace) hg
    exact Nesting.depth_of_find?_openings hopening (Nat.zero_le limit)
  have hordered := (Nesting.openings_ordered hlexes 0).2
  rw [hopenings, List.pairwise_map] at hordered
  obtain ⟨hlimit, before, after, hgroups, hbefore⟩ := List.find?_eq_some_iff_append.mp hg
  rw [hgroups, List.pairwise_append, List.pairwise_cons] at hordered
  refine ⟨hlevel, ?_, fun g' hg' => ?_⟩
  · rw [hgroups]
    exact List.mem_append_right _ List.mem_cons_self
  · rw [hgroups, List.mem_append, List.mem_cons] at hg'
    rcases hg' with hg' | heq | hg'
    · -- what stands before the group does not lie too deep
      simpa [hlevel] using hbefore _ hg'
    · exact Nat.le_of_eq (congrArg (·.2.span.start) heq.symm)
    · exact hordered.2.1.1 _ hg'

/-- The first child of a group is its opening bracket. -/
lemma head_of_mem_groups (h : Accepts source t) (hg : g ∈ t.groups) :
    ∃ b, g.2.tag = Form.groupTag b ∧
      g.2.children.head? = some (Form.bracketLeaf b.opening g.2.span.start) := by
  obtain ⟨ts, fs, -, -, rfl⟩ := accepts_iff_splits.mp h
  exact Form.head_of_mem_groupsAllAt 0 fs g hg

end Grammar.Accepts

namespace Tree

variable {source : String} {limit : Nat} {t : Tree}

lemma parse_eq_ok_iff_accepts :
    parse source limit = .ok t ↔
      Nesting.tooDeep? limit source.toList = none ∧ Accepts source t := by
  rw [accepts_iff, parse_eq_ok]
  simp only [Program.parse_eq_ok, and_assoc, exists_and_left]

lemma parse_of_tooDeep? {pos depth : Nat}
    (h : Nesting.tooDeep? limit source.toList = some (pos, depth)) :
    parse source limit = .error ⟨.tooDeep depth limit, source, ⟨pos, pos + 1⟩⟩ := by
  rw [parse, Program.parse, h]
  rfl

end Tree

/-- **The limit on nesting is exact.** A source that the grammar accepts is parsed if the groups of
its tree nest no deeper than the limit. Otherwise the error is at the opening bracket of the
leftmost group at the first level beyond the limit. What has been parsed keeps to the limit, and a
higher limit changes nothing about it. -/
theorem nesting_limit_is_exact (source : String) (limit : Nat) :
    (∀ t, Accepts source t →
      (t.nesting ≤ limit → Tree.parse source limit = .ok t) ∧
      (limit < t.nesting → ∃ g b, t.IsLeftmost (limit + 1) g ∧ g.tag = Form.groupTag b ∧
        g.children.head? = some (Form.bracketLeaf b.opening g.span.start) ∧
        Tree.parse source limit = .error
          ⟨.tooDeep (limit + 1) limit, source, ⟨g.span.start, g.span.start + 1⟩⟩)) ∧
    ∀ t, Tree.parse source limit = .ok t →
      t.nesting ≤ limit ∧ ∀ higher, limit ≤ higher → Tree.parse source higher = .ok t := by
  have hok {t : Tree} {limit : Nat} (h : Accepts source t) :
      Tree.parse source limit = .ok t ↔ t.nesting ≤ limit := by
    rw [Tree.parse_eq_ok_iff_accepts, h.tooDeep?_eq_find? limit, Option.map_eq_none_iff,
      Tree.find?_groups_eq_none]
    exact and_iff_left h
  refine ⟨fun t h => ⟨(hok h).mpr, fun hlimit => ?_⟩, fun t hparse => ?_⟩
  · cases hg : t.groups.find? (limit < ·.1) with
    | none => exact absurd (Tree.find?_groups_eq_none.mp hg) (Nat.not_le.mpr hlimit)
    | some g =>
      obtain ⟨hlevel, hleftmost⟩ := h.isLeftmost_of_find? hg
      obtain ⟨b, htag, hhead⟩ := h.head_of_mem_groups hleftmost.1
      rw [hlevel] at hleftmost
      refine ⟨g.2, b, hleftmost, htag, hhead, Tree.parse_of_tooDeep? ?_⟩
      rw [h.tooDeep?_eq_find? limit, hg, Option.map_some, Tree.openingPlace, hlevel]
  · have h := (Tree.parse_eq_ok_iff_accepts.mp hparse).2
    have hlimit := (hok h).mp hparse
    exact ⟨hlimit, fun higher hle => (hok h).mpr (Nat.le_trans hlimit hle)⟩

/-- The bracket in the comment does not count, and the one in the group does. -/
theorem nesting_limit_is_exact_comment :
    ∃ t, Accepts "(\x7b\x7d) ; (" t ∧ t.nesting = 2 ∧
      (∃ g b, t.IsLeftmost 2 g ∧ g.tag = Form.groupTag b ∧
        g.children.head? = some (Form.bracketLeaf b.opening g.span.start) ∧
        Tree.parse "(\x7b\x7d) ; (" 1 = .error
          ⟨.tooDeep 2 1, "(\x7b\x7d) ; (", ⟨g.span.start, g.span.start + 1⟩⟩) ∧
      Tree.parse "(\x7b\x7d) ; (" 2 = .ok t ∧
      ∀ higher, 2 ≤ higher → Tree.parse "(\x7b\x7d) ; (" higher = .ok t := by
  obtain ⟨t, ht, hnesting⟩ : ∃ t, Accepts "(\x7b\x7d) ; (" t ∧ t.nesting = 2 := by
    let p : Program := ⟨[.group .round ⟨0, 4⟩ [.group .curly ⟨1, 3⟩ []]], 8⟩
    exact ⟨p.toTree, accepts_iff.mpr ⟨p, rfl, rfl⟩, rfl⟩
  have hparse := ((nesting_limit_is_exact _ 2).1 t ht).1 (Nat.le_of_eq hnesting)
  refine ⟨t, ht, hnesting, ?_, hparse, ((nesting_limit_is_exact _ 2).2 t hparse).2⟩
  exact ((nesting_limit_is_exact _ 1).1 t ht).2 (by rw [hnesting]; decide)

end BraceLisp
