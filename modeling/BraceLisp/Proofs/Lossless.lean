import BraceLisp.Proofs.Layout

/-!
The syntax tree keeps the source.

A source is made of tokens and the gaps between them, and the leaves of its tree are those tokens,
so that leaves and gaps rebuild it (`Lexes.rebuilds`). The trees of forms stand where their tokens
stand, one after another. This is carried through groups by induction on how the tokens are grouped,
and says of each node where it stands (`Groups.faithful`).
-/

namespace BraceLisp

open Grammar

namespace Text

/-- From the offset `pos` on the source is `cs`. -/
def GoesOn (source : List Char) (pos : Nat) (cs : List Char) : Prop :=
  ∃ before, source = before ++ cs ∧ pos = utf8Length before

/-- An offset at which a character begins, or the end of the source. -/
def IsBoundary (source : List Char) (pos : Nat) : Prop := ∃ cs, GoesOn source pos cs

end Text

namespace Tree

/-- Trees that stand one after another between two offsets. -/
structure InOrder (start stop : Nat) (ts : List Tree) : Prop where
  le : start ≤ stop
  nonempty : ∀ t ∈ ts, t.span.start < t.span.stop
  inside : ∀ t ∈ ts, start ≤ t.span.start ∧ t.span.stop ≤ stop
  ordered : ts.Pairwise (·.span.stop ≤ ·.span.start)

/-- The first child is the leaf of the opening bracket, where the node begins, and the last child
that of the closing bracket, where the node ends. -/
def Bracketed (b : Bracket) (t : Tree) : Prop :=
  ∃ first members last, t.children = first :: (members ++ [last]) ∧
    (first.tag = "char" ∧ first.text = some (String.singleton b.opening) ∧
      first.span.start = t.span.start) ∧
    last.tag = "char" ∧ last.text = some (String.singleton b.closing) ∧
      last.span.stop = t.span.stop

/-- What a node of the tree of a source has to do with the source. -/
structure Faithful (source : List Char) (t : Tree) : Prop where
  start : Text.IsBoundary source t.span.start
  stop : Text.IsBoundary source t.span.stop
  leaf : ∀ s, t.text = some s →
    t.children = [] ∧ s.toList = Text.slice t.span.start t.span.stop source
  children : InOrder t.span.start t.span.stop t.children
  brackets : ∀ b, t.tag = Form.groupTag b → t.Bracketed b

/-- A node below the root is a leaf or a group. -/
structure Inner (source : List Char) (t : Tree) : Prop extends Faithful source t where
  group : t.text = none → ∃ b, t.tag = Form.groupTag b

/-- The text `cs`, which stands at the offset `pos`, is made of the texts of the leaves, each of
them where its span says, with a gap before each and one at the end. -/
inductive Rebuilds : Nat → List Char → List Tree → Prop where
  | nil {pos : Nat} {g : List Char} (hgap : IsGap [] g) : Rebuilds pos g []
  | leaf {pos : Nat} {g text cs : List Char} {l : Tree} {ls : List Tree}
      (hgap : IsGap (text ++ cs) g) (htext : l.text = some (String.ofList text))
      (hspan : l.span =
        ⟨pos + Text.utf8Length g, pos + Text.utf8Length g + Text.utf8Length text⟩)
      (hrest : Rebuilds (pos + Text.utf8Length g + Text.utf8Length text) cs ls) :
      Rebuilds pos (g ++ (text ++ cs)) (l :: ls)

end Tree

/-! ### Places in a source -/

namespace Text

variable {source cs ds : List Char} {pos : Nat}

lemma GoesOn.isBoundary (h : GoesOn source pos cs) : IsBoundary source pos := ⟨cs, h⟩

lemma GoesOn.append (h : GoesOn source pos (cs ++ ds)) :
    GoesOn source (pos + utf8Length cs) ds := by
  obtain ⟨before, rfl, rfl⟩ := h
  exact ⟨before ++ cs, by simp, by simp⟩

lemma GoesOn.slice (h : GoesOn source pos (cs ++ ds)) :
    slice pos (pos + utf8Length cs) source = cs := by
  obtain ⟨before, rfl, rfl⟩ := h
  exact slice_append before cs ds

end Text

namespace Lexes

variable {pos stop : Nat} {source cs rest : List Char} {t : Token.Placed} {ts : List Token.Placed}

/-- The first token stands in the source, and the others come after it. -/
lemma first (h : Lexes pos cs (t :: ts) stop rest) (hcs : Text.GoesOn source pos cs) :
    ∃ after, pos ≤ t.start ∧ 0 < Text.utf8Length t.token.chars ∧
      Text.GoesOn source t.start (t.token.chars ++ after) ∧
      Lexes (t.start + Text.utf8Length t.token.chars) after ts stop rest := by
  cases h with
  | @token _ _ g after _ _ _ _ hwhole hrest =>
    exact ⟨after, Nat.le_add_right _ _, Text.utf8Length_pos hwhole.chars_ne_nil, hcs.append, hrest⟩

lemma goesOn (h : Lexes pos cs ts stop rest) (hcs : Text.GoesOn source pos cs) :
    Text.GoesOn source stop rest := by
  induction h with
  | nil => exact hcs
  | token _ _ _ ih => exact ih hcs.append.append

lemma le (h : Lexes pos cs ts stop rest) : pos ≤ stop := by
  induction h with
  | nil => exact Nat.le_refl _
  | token _ _ _ ih => omega

/-- The leaves of tokens rebuild the text that is made of the tokens. -/
lemma rebuilds (h : Lexes pos cs ts stop rest) (hrest : IsGap [] rest) :
    Tree.Rebuilds pos cs (ts.map Token.Placed.toTree) := by
  induction h with
  | nil => exact .nil hrest
  | @token pos _ g cs _ t ts hgap _ _ ih =>
    obtain ⟨tag, -, hleaf⟩ := Token.Placed.exists_toTree_eq_leaf ⟨pos + Text.utf8Length g, t⟩
    rw [List.map_cons]
    exact .leaf hgap (by rw [hleaf]; rfl) (by rw [hleaf]; rfl) (ih hrest)

end Lexes

/-! ### Nodes in order -/

namespace Tree.InOrder

variable {start mid stop : Nat} {t : Tree} {ts us : List Tree}

lemma nil (h : start ≤ stop) : InOrder start stop [] := ⟨h, nofun, nofun, .nil⟩

lemma append (h : InOrder start mid ts) (h' : InOrder mid stop us) :
    InOrder start stop (ts ++ us) where
  le := Nat.le_trans h.le h'.le
  nonempty := List.forall_mem_append.mpr ⟨h.nonempty, h'.nonempty⟩
  inside := List.forall_mem_append.mpr
    ⟨fun t ht => ⟨(h.inside t ht).1, Nat.le_trans (h.inside t ht).2 h'.le⟩,
      fun u hu => ⟨Nat.le_trans h.le (h'.inside u hu).1, (h'.inside u hu).2⟩⟩
  ordered := List.pairwise_append.mpr ⟨h.ordered, h'.ordered,
    fun t ht u hu => Nat.le_trans (h.inside t ht).2 (h'.inside u hu).1⟩

lemma singleton (hstart : start ≤ t.span.start) (hlt : t.span.start < t.span.stop) :
    InOrder start t.span.stop [t] where
  le := Nat.le_trans hstart (Nat.le_of_lt hlt)
  nonempty := by simpa using hlt
  inside := by simpa using hstart
  ordered := List.pairwise_singleton _ _

lemma cons (hstart : start ≤ t.span.start) (hlt : t.span.start < t.span.stop)
    (h : InOrder t.span.stop stop ts) : InOrder start stop (t :: ts) :=
  (singleton hstart hlt).append h

end Tree.InOrder

/-! ### Nodes of forms -/

lemma Form.groupTag_inj {b b' : Bracket} : groupTag b = groupTag b' ↔ b = b' := by
  cases b <;> cases b' <;> decide

/-- The leaf of a token stands where the token does. -/
lemma Token.Placed.inner_toTree {source after : List Char} {t : Token.Placed}
    (h : Text.GoesOn source t.start (t.token.chars ++ after)) (depth : Nat) :
    ∀ n ∈ t.toTree.nodesAt depth, n.2.Inner source := by
  rw [nodesAt_toTree]
  obtain ⟨tag, htag, hleaf⟩ := t.exists_toTree_eq_leaf
  rw [hleaf]
  refine List.forall_mem_singleton.mpr
    ⟨⟨h.isBoundary, h.append.isBoundary, ?_, .nil (Nat.le_add_right _ _), ?_⟩, nofun⟩
  · rintro _ ⟨⟩
    exact ⟨rfl, by rw [String.toList_ofList]; exact h.slice.symm⟩
  · exact fun b hb => absurd hb (htag b)

/-- The nodes of a group are itself, its brackets, and the nodes of its members. -/
lemma Form.nodesAt_group (depth : Nat) (b : Bracket) (start last : Nat) (ms : List Form) :
    (group b ⟨start, last + 1⟩ ms).toTree.nodesAt depth =
      (depth, (group b ⟨start, last + 1⟩ ms).toTree) ::
        ((Token.Placed.toTree ⟨start, .opening b⟩).nodesAt (depth + 1) ++
          (Tree.nodesAllAt (depth + 1) (toTrees ms) ++
            (Token.Placed.toTree ⟨last, .closing b⟩).nodesAt (depth + 1))) := by
  rw [toTree, Tree.branch, Tree.nodesAt, Tree.nodesAllAt, Tree.nodesAllAt_append]
  simp [Tree.nodesAllAt, Token.Placed.toTree]

/-- A group stands from its opening to its closing bracket. -/
lemma Form.inner_group {source inside outside : List Char} {b : Bracket} {start mid last : Nat}
    {ms : List Form} {depth : Nat}
    (hopening : Text.GoesOn source start ((Token.opening b).chars ++ inside))
    (hclosing : Text.GoesOn source last ((Token.closing b).chars ++ outside)) (hmid : mid ≤ last)
    (horder : Tree.InOrder (start + 1) mid (toTrees ms))
    (hnodes : ∀ n ∈ Tree.nodesAllAt (depth + 1) (toTrees ms), n.2.Inner source) :
    ∀ n ∈ (group b ⟨start, last + 1⟩ ms).toTree.nodesAt depth, n.2.Inner source := by
  have hfirst := Token.Placed.inner_toTree (t := ⟨start, .opening b⟩) hopening (depth + 1)
  have hlast := Token.Placed.inner_toTree (t := ⟨last, .closing b⟩) hclosing (depth + 1)
  have hstop := hclosing.append.isBoundary
  rw [Token.utf8Length_closing] at hstop
  rw [nodesAt_group]
  refine List.forall_mem_cons.mpr ⟨?_, List.forall_mem_append.mpr
    ⟨hfirst, List.forall_mem_append.mpr ⟨hnodes, hlast⟩⟩⟩
  refine ⟨⟨hopening.isBoundary, hstop, nofun, ?_, fun b' hb => ?_⟩, fun _ => ⟨b, rfl⟩⟩
  · have hend : Tree.InOrder mid (last + 1) [bracketLeaf b.closing last] :=
      .cons hmid (Nat.lt_succ_self last) (.nil (Nat.le_refl _))
    exact .cons (Nat.le_refl start) (Nat.lt_succ_self start) (horder.append hend)
  · obtain rfl := groupTag_inj.mp hb
    exact ⟨_, _, _, rfl, ⟨rfl, rfl, rfl⟩, rfl, rfl, rfl⟩

/-- Forms stand in order where their tokens stand, and their nodes keep the source. -/
lemma Groups.faithful {source : List Char} {ts : List Token.Placed} {fs : List Form}
    (h : Groups ts fs) {pos stop : Nat} {cs rest : List Char} (hlexes : Lexes pos cs ts stop rest)
    (hcs : Text.GoesOn source pos cs) (depth : Nat) :
    Tree.InOrder pos stop (Form.toTrees fs) ∧
      ∀ n ∈ Tree.nodesAllAt depth (Form.toTrees fs), n.2.Inner source := by
  induction h generalizing pos stop cs rest depth with
  | nil => exact ⟨.nil hlexes.le, nofun⟩
  | @word start w ts fs _ ih =>
    obtain ⟨after, hle, hlt, hword, hrest⟩ := hlexes.first hcs
    obtain ⟨horder, hnodes⟩ := ih hrest hword.append depth
    have hself : ∀ n ∈ (Form.word start w).toTree.nodesAt depth, n.2.Inner source :=
      Token.Placed.inner_toTree hword depth
    have hspan : (Form.word start w).toTree.span = ⟨start, start + Text.utf8Length w⟩ := by
      obtain ⟨tag, -, hleaf⟩ := Token.Placed.exists_toTree_eq_leaf ⟨start, .word w⟩
      exact congrArg Tree.span hleaf
    rw [Form.toTrees, Tree.nodesAllAt]
    refine ⟨.cons ?_ ?_ ?_, List.forall_mem_append.mpr ⟨hself, hnodes⟩⟩ <;> rw [hspan]
    · exact hle
    · exact Nat.lt_add_of_pos_right hlt
    · exact horder
  | @group b start last inner ts ms fs _ _ ihinner ihrest =>
    obtain ⟨inside, hle, -, hopening, hlexes⟩ := hlexes.first hcs
    obtain ⟨mid, ds, hmembers, hlexes⟩ := hlexes.split
    obtain ⟨outside, hmid, -, hclosing, hrest⟩ :=
      hlexes.first (hmembers.goesOn hopening.append)
    have hinside := hopening.append
    have houtside := hclosing.append
    simp only [Token.utf8Length_opening] at hmembers hinside
    simp only [Token.utf8Length_closing] at hrest houtside
    obtain ⟨hinner, hmembers⟩ := ihinner hmembers hinside (depth + 1)
    obtain ⟨horder, hnodes⟩ := ihrest hrest houtside depth
    have hself := Form.inner_group hopening hclosing hmid hinner hmembers
    have hlt : start < last + 1 := Nat.lt_of_lt_of_le hinner.le (Nat.le_succ_of_le hmid)
    rw [Form.toTrees, Tree.nodesAllAt]
    exact ⟨.cons hle hlt horder, List.forall_mem_append.mpr ⟨hself, hnodes⟩⟩

/-- **The tree keeps the source.** The tree of a source that is parsed covers it from the first byte
to the last. Its nodes begin and end between characters. Leaves carry the text of their span.
Groups begin and end with their brackets. Children are not empty and stand one after another within
their parent. The leaves and the gaps between them are the source. -/
theorem tree_keeps_source {source : String} {limit : Nat} {t : Tree}
    (h : Tree.parse source limit = .ok t) :
    t.tag = rootTag ∧ t.span = ⟨0, source.utf8ByteSize⟩ ∧ t.Faithful source.toList ∧
    (∀ n ∈ Tree.nodesAllAt 1 t.children, n.2.Inner source.toList) ∧
    Tree.Rebuilds 0 source.toList t.leaves := by
  obtain ⟨ts, fs, ⟨stop, last, hlexes, hlast⟩, hgroups, -, rfl⟩ := Tree.parse_eq_ok_iff_splits.mp h
  have hsource : Text.GoesOn source.toList 0 source.toList := ⟨[], rfl, rfl⟩
  obtain ⟨horder, hnodes⟩ := hgroups.faithful hlexes hsource 1
  have hsize := hlexes.utf8Length
  have hend : Text.GoesOn source.toList (Text.utf8Length source.toList) [] :=
    ⟨source.toList, (List.append_nil _).symm, rfl⟩
  have hall : Tree.InOrder 0 (Text.utf8Length source.toList) (Form.toTrees fs) := by
    have hrest : Tree.InOrder stop (Text.utf8Length source.toList) [] := .nil (by omega)
    simpa using horder.append hrest
  have hleaves : (Program.toTree ⟨fs, Text.utf8Length source.toList⟩).leaves =
      ts.map Token.Placed.toTree := hgroups.leavesOf 1
  refine ⟨rfl, ?_, ⟨hsource.isBoundary, hend.isBoundary, nofun, hall, ?_⟩, hnodes, ?_⟩
  · rw [← Text.utf8Length_toList]
    rfl
  · have hroot (b : Bracket) : rootTag ≠ Form.groupTag b := by cases b <;> decide
    exact fun b hb => absurd hb (hroot b)
  · rw [hleaves]
    exact hlexes.rebuilds hlast

/-- A list within a list, and a comment with a letter of two bytes. -/
theorem tree_keeps_source_letter :
    ∃ t, Tree.parse "(a \x7b1\x7d) ; ä\n2" 2 = .ok t ∧ t.tag = rootTag ∧ t.span = ⟨0, 14⟩ ∧
      t.Faithful "(a \x7b1\x7d) ; ä\n2".toList ∧
      (∀ n ∈ Tree.nodesAllAt 1 t.children, n.2.Inner "(a \x7b1\x7d) ; ä\n2".toList) ∧
      Tree.Rebuilds 0 "(a \x7b1\x7d) ; ä\n2".toList t.leaves := by
  let p : Program := ⟨[.group .round ⟨0, 7⟩ [.symbol ⟨1, 2⟩ "a",
    .group .curly ⟨3, 6⟩ [.number ⟨4, 5⟩ "1"]], .number ⟨13, 14⟩ "2"], 14⟩
  have h : Tree.parse "(a \x7b1\x7d) ; ä\n2" 2 = .ok p.toTree := rfl
  exact ⟨p.toTree, h, tree_keeps_source h⟩

end BraceLisp
