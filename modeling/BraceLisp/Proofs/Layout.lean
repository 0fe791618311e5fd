import BraceLisp.Proofs.Gap
import BraceLisp.Proofs.NestingLimit
import BraceLisp.Proofs.Reading

/-!
Layout does not matter.

The tokens of a source, without their places, decide whether it is parsed under a limit and what its
tree is but for the spans (`Tree.parse_of_tokens`), and the value of a tree does not look at spans
(`Value.ofTree_withoutSpans`). A change of a gap changes no token, so nothing is read differently
after it (`layout_does_not_matter`).
-/

namespace BraceLisp

open Grammar

namespace Tree

mutual

/-- The tree with the same span at each of its nodes. -/
def withoutSpans : Tree → Tree
  | ⟨tag, text, children, _⟩ => ⟨tag, text, withoutSpansAll children, ⟨0, 0⟩⟩

def withoutSpansAll : List Tree → List Tree
  | [] => []
  | t :: ts => t.withoutSpans :: withoutSpansAll ts

end

lemma withoutSpansAll_append (ts us : List Tree) :
    withoutSpansAll (ts ++ us) = withoutSpansAll ts ++ withoutSpansAll us := by
  induction ts with
  | nil => rfl
  | cons t ts ih => rw [List.cons_append, withoutSpansAll, withoutSpansAll, ih, List.cons_append]

lemma isPunctuation_withoutSpans (t : Tree) : t.withoutSpans.isPunctuation = t.isPunctuation := by
  obtain ⟨tag, text, children, span⟩ := t
  rw [withoutSpans]
  rfl

end Tree

namespace Value

mutual

/-- Reading does not look at spans. -/
theorem ofTree_withoutSpans : ∀ t : Tree, ofTree t.withoutSpans = ofTree t
  | ⟨tag, text, children, span⟩ => by
    rw [Tree.withoutSpans, ofTree, ofTree, ofTrees_withoutSpans children]
    rfl

theorem ofTrees_withoutSpans : ∀ ts : List Tree, ofTrees (Tree.withoutSpansAll ts) = ofTrees ts
  | [] => rfl
  | t :: ts => by
    rw [Tree.withoutSpansAll, ofTrees_cons, ofTrees_cons, Tree.isPunctuation_withoutSpans,
      ofTree_withoutSpans t, ofTrees_withoutSpans ts]

end

end Value

/-! ### Tokens without their places -/

namespace Form

lemma withoutSpans_word (start start' : Nat) (cs : List Char) :
    (word start cs).toTree.withoutSpans = (word start' cs).toTree.withoutSpans := by
  unfold word
  split <;> rfl

lemma withoutSpans_group (b : Bracket) (span : Span) (ms : List Form) :
    (group b span ms).toTree.withoutSpans = ⟨groupTag b, none,
      (bracketLeaf b.opening 0).withoutSpans ::
        (Tree.withoutSpansAll (toTrees ms) ++ [(bracketLeaf b.closing 0).withoutSpans]),
      ⟨0, 0⟩⟩ := by
  rw [toTree, Tree.branch, Tree.withoutSpans, Tree.withoutSpansAll, Tree.withoutSpansAll_append]
  rfl

end Form

/-- The same tokens, wherever they stand, make up the same forms. -/
lemma Groups.of_tokens {ts us : List Token.Placed} {fs : List Form} (h : Groups ts fs)
    (htokens : us.map Token.Placed.token = ts.map Token.Placed.token) : ∃ gs, Groups us gs ∧
      Tree.withoutSpansAll (Form.toTrees gs) = Tree.withoutSpansAll (Form.toTrees fs) := by
  induction h generalizing us with
  | nil =>
    rw [List.map_nil, List.map_eq_nil_iff] at htokens
    subst htokens
    exact ⟨[], .nil, rfl⟩
  | @word start cs _ fs _ ih =>
    rw [List.map_cons, List.map_eq_cons_iff] at htokens
    obtain ⟨⟨start', _⟩, us, rfl, rfl, htokens⟩ := htokens
    obtain ⟨gs, hgs, htrees⟩ := ih htokens
    refine ⟨.word start' cs :: gs, .word hgs, ?_⟩
    rw [Form.toTrees, Form.toTrees, Tree.withoutSpansAll, Tree.withoutSpansAll, htrees,
      Form.withoutSpans_word start' start]
  | @group b start stop inner ts ms fs _ _ ihinner ihrest =>
    rw [List.map_cons, List.map_append, List.map_cons, List.map_eq_cons_iff] at htokens
    obtain ⟨⟨start', _⟩, us, rfl, rfl, htokens⟩ := htokens
    obtain ⟨inner', us, rfl, hinner, htokens⟩ := List.map_eq_append_iff.mp htokens
    obtain ⟨⟨stop', _⟩, us, rfl, rfl, hrest⟩ := List.map_eq_cons_iff.mp htokens
    obtain ⟨ms', hms, hmembers⟩ := ihinner hinner
    obtain ⟨gs, hgs, htrees⟩ := ihrest hrest
    refine ⟨.group b ⟨start', stop' + 1⟩ ms' :: gs, .group hms hgs, ?_⟩
    rw [Form.toTrees, Form.toTrees, Tree.withoutSpansAll, Tree.withoutSpansAll, htrees,
      Form.withoutSpans_group, Form.withoutSpans_group, hmembers]

/-- How deep brackets lie does not depend on where they stand. -/
lemma Nesting.depths_of_tokens {ts us : List Token.Placed}
    (htokens : us.map Token.Placed.token = ts.map Token.Placed.token) (depth : Nat) :
    (openings depth us).map Prod.snd = (openings depth ts).map Prod.snd := by
  induction ts generalizing us depth with
  | nil =>
    rw [List.map_nil, List.map_eq_nil_iff] at htokens
    rw [htokens]
  | cons t ts ih =>
    rw [List.map_cons, List.map_eq_cons_iff] at htokens
    obtain ⟨⟨start', _⟩, us, rfl, rfl, htokens⟩ := htokens
    obtain ⟨start, token⟩ := t
    cases token with
    | opening b => rw [openings, openings, List.map_cons, List.map_cons, ih htokens]
    | closing b => rw [openings, openings, ih htokens]
    | word cs => rw [openings, openings, ih htokens]

namespace Tree

variable {source : String} {cs : List Char} {limit : Nat} {t : Tree}

/-- A source is parsed if its tokens are grouped and their depths keep to the limit. -/
lemma parse_eq_ok_iff_splits : parse source limit = .ok t ↔ ∃ ts fs, Splits 0 source.toList ts ∧
    Groups ts fs ∧ (∀ depth ∈ (Nesting.openings 0 ts).map Prod.snd, depth ≤ limit) ∧
    t = Program.toTree ⟨fs, Text.utf8Length source.toList⟩ := by
  have hdepths {ts} (hts : Splits 0 source.toList ts) :
      Nesting.tooDeep? limit source.toList = none ↔
        ∀ depth ∈ (Nesting.openings 0 ts).map Prod.snd, depth ≤ limit := by
    obtain ⟨stop, last, hlexes, hlast⟩ := hts
    rw [Nesting.tooDeep?, Nesting.tooDeepFrom?_lexes hlexes hlast, List.find?_eq_none,
      List.forall_mem_map]
    simp only [decide_eq_true_eq, Nat.not_lt]
  rw [parse_eq_ok_iff_accepts, accepts_iff_splits]
  constructor
  · rintro ⟨hlimit, ts, fs, hts, hfs, rfl⟩
    exact ⟨ts, fs, hts, hfs, (hdepths hts).mp hlimit, rfl⟩
  · rintro ⟨ts, fs, hts, hfs, hlimit, rfl⟩
    exact ⟨(hdepths hts).mpr hlimit, ts, fs, hts, hfs, rfl⟩

/-- A change of a source that changes none of its tokens changes nothing but the spans. -/
lemma parse_of_tokens (h : parse source limit = .ok t)
    (hcs : ∀ ts, Splits 0 source.toList ts → ∃ us, Splits 0 cs us ∧
      us.map Token.Placed.token = ts.map Token.Placed.token) :
    ∃ u, parse (String.ofList cs) limit = .ok u ∧ u.withoutSpans = t.withoutSpans ∧
      Value.ofTree u = Value.ofTree t := by
  obtain ⟨ts, fs, hts, hfs, hlimit, rfl⟩ := parse_eq_ok_iff_splits.mp h
  obtain ⟨us, hus, htokens⟩ := hcs ts hts
  obtain ⟨gs, hgs, htrees⟩ := hfs.of_tokens htokens
  rw [← Nesting.depths_of_tokens htokens] at hlimit
  have hroots : (Program.toTree ⟨gs, Text.utf8Length cs⟩).withoutSpans =
      (Program.toTree ⟨fs, Text.utf8Length source.toList⟩).withoutSpans := by
    rw [Program.toTree, Program.toTree, branch, branch, withoutSpans, withoutSpans, htrees]
  refine ⟨Program.toTree ⟨gs, Text.utf8Length cs⟩, ?_, hroots, ?_⟩
  · rw [parse_eq_ok_iff_splits, String.toList_ofList]
    exact ⟨us, gs, hus, hgs, hlimit, rfl⟩
  · rw [← Value.ofTree_withoutSpans, hroots, Value.ofTree_withoutSpans]

end Tree

/-! ### Boundaries -/

namespace Splits

variable {cs : List Char} {ts us : List Token.Placed} {t : Token.Placed}

/-- Before a token there is a gap, and after it there is a boundary. -/
lemma gapped (h : Splits 0 cs (ts ++ t :: us)) : ∃ before gap after,
    cs = before ++ (gap ++ (t.token.chars ++ after)) ∧
    t.start = Text.utf8Length (before ++ gap) ∧
    Gapped before gap (t.token.chars ++ after) ∧
    Gapped (before ++ (gap ++ t.token.chars)) [] after := by
  obtain ⟨stop, last, hlexes, -⟩ := h
  obtain ⟨mid, ds, hfront, hback⟩ := hlexes.split
  cases hback with
  | @token _ _ gap after _ t us hgap hwhole hrest =>
    obtain ⟨before, rfl, -⟩ := hfront.exchange_rest
    have hstart : mid + Text.utf8Length gap = Text.utf8Length (before ++ gap) := by
      have hlength := hfront.utf8Length
      rw [Text.utf8Length_append] at hlength ⊢
      omega
    have hboth := hfront.trans (.token hgap hwhole .nil)
    rw [← List.append_assoc gap, ← List.append_assoc before] at hboth
    exact ⟨before, gap, after, rfl, hstart, ⟨ts, mid, hfront, hgap⟩, _, _, hboth, .nil⟩

/-- After the last token a gap goes on to the end. -/
lemma gapped_end (h : Splits 0 cs ts) :
    ∃ before gap, cs = before ++ gap ∧ Gapped before gap [] := by
  obtain ⟨stop, last, hlexes, hlast⟩ := h
  obtain ⟨before, rfl, -⟩ := hlexes.exchange_rest
  exact ⟨before, last, rfl, ts, stop, by rwa [List.append_nil], hlast⟩

end Splits

/-- **Layout does not matter.** In a source that is parsed, a gap stands before each token and at
the end, and each token ends at a boundary. Where there is a gap or a boundary, blanks and comments
may be inserted, and a gap that is not empty may stand in place of the one that is there. The source
is parsed under the same limit then, to a tree that differs in spans only, and reads as the same
value. -/
theorem layout_does_not_matter {source : String} {limit : Nat} {t : Tree}
    (h : Tree.parse source limit = .ok t) :
    (∀ ts p us, Splits 0 source.toList (ts ++ p :: us) → ∃ before gap after,
      source.toList = before ++ (gap ++ (p.token.chars ++ after)) ∧
      p.start = Text.utf8Length (before ++ gap) ∧
      Gapped before gap (p.token.chars ++ after) ∧
      Gapped (before ++ (gap ++ p.token.chars)) [] after) ∧
    (∃ before gap, source.toList = before ++ gap ∧ Gapped before gap []) ∧
    ∀ before old after, source.toList = before ++ (old ++ after) → Gapped before old after →
      ∀ gap, ClosedGap gap →
        (∃ u, Tree.parse (String.ofList (before ++ (old ++ (gap ++ after)))) limit = .ok u ∧
          u.withoutSpans = t.withoutSpans ∧ Value.ofTree u = Value.ofTree t) ∧
        (gap ≠ [] → ∃ u, Tree.parse (String.ofList (before ++ (gap ++ after))) limit = .ok u ∧
          u.withoutSpans = t.withoutSpans ∧ Value.ofTree u = Value.ofTree t) := by
  refine ⟨fun ts p us hts => hts.gapped, ?_, fun before old after hsource hold gap hgap => ?_⟩
  · obtain ⟨ts, -, hts, -⟩ := Tree.parse_eq_ok_iff_splits.mp h
    exact hts.gapped_end
  · have hexchange {new : List Char} (hnew : IsGap after new) (hempty : new = [] → old = []) :
        ∃ u, Tree.parse (String.ofList (before ++ (new ++ after))) limit = .ok u ∧
          u.withoutSpans = t.withoutSpans ∧ Value.ofTree u = Value.ofTree t := by
      refine Tree.parse_of_tokens h fun ts hts => ?_
      rw [hsource] at hts
      exact hts.exchange_gap hold hnew hempty
    constructor
    · rw [← List.append_assoc old]
      obtain ⟨-, -, -, hgapped⟩ := hold
      exact hexchange (hgapped.append_closed hgap) fun hnil => (List.append_eq_nil_iff.mp hnil).1
    · intro hne
      exact hexchange (hgap.isGap after) fun hnil => absurd hnil hne

/-- A blank goes in after a comment with a bracket in it, or stands in place of the comment. -/
theorem layout_does_not_matter_comment :
    ∃ t, Tree.parse "+;(\n(1)" 1 = .ok t ∧ ClosedGap [' '] ∧
      Gapped ['+'] [';', '(', '\n'] ['(', '1', ')'] ∧
      (∃ u, Tree.parse "+;(\n (1)" 1 = .ok u ∧ u.withoutSpans = t.withoutSpans ∧
        Value.ofTree u = Value.ofTree t) ∧
      ∃ u, Tree.parse "+ (1)" 1 = .ok u ∧ u.withoutSpans = t.withoutSpans ∧
        Value.ofTree u = Value.ofTree t := by
  let p : Program := ⟨[.symbol ⟨0, 1⟩ "+", .group .round ⟨4, 7⟩ [.number ⟨5, 6⟩ "1"]], 7⟩
  have hparse : Tree.parse "+;(\n(1)" 1 = .ok p.toTree := rfl
  have hgap : ClosedGap [' '] := .blank rfl .nil
  have hbody : ∀ c ∈ ['('], (c != '\n') = true := by simp
  have hcomment : ClosedGap [';', '(', '\n'] := .comment hbody .nil
  have hword : Token.Whole [';', '(', '\n', '(', '1', ')'] (.word ['+']) :=
    ⟨.singleton rfl, Text.stops_cons.mpr rfl⟩
  have hgapped : Gapped ['+'] [';', '(', '\n'] ['(', '1', ')'] :=
    ⟨_, _, .token (g := []) .nil hword .nil, hcomment.isGap _⟩
  have hedits := (layout_does_not_matter hparse).2.2 _ _ _ rfl hgapped _ hgap
  exact ⟨p.toTree, hparse, hgap, hgapped, hedits.1, hedits.2 (List.cons_ne_nil _ _)⟩

end BraceLisp
