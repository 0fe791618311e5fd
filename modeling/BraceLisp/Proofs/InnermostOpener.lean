import BraceLisp.Proofs.Unclosed

/-!
Which bracket is missing its partner.

The note on a missing closing bracket comes from a search of its own, which keeps the offsets of the
brackets that are open and does not compare kinds. On what a scan reads it keeps the offsets at
which the open groups of the scan begin (`Scan.stillOpenFrom_run`). Each of them begins at an
opening bracket outside comments, and the brackets that follow are balanced up to the next one
(`Scan.HasRead`). What the scan has not read is white space, where no bracket is found. So the note
is at the opening bracket of the innermost open group, whose kind the report names
(`note_is_at_innermost_opener`).
-/

namespace BraceLisp

/-! ### Brackets outside comments -/

namespace Text

/-- A semicolon stands in the last line of a text, so that the text ends in a comment. -/
def EndsInComment (cs : List Char) : Prop := ';' ∈ cs.rtakeWhile (· != '\n')

/-- The brackets of a text that are not in comments, if the text begins in a comment or not. -/
def bracketsFrom (inComment : Bool) : List Char → List Char
  | [] => []
  | c :: cs =>
    let rest := bracketsFrom (commentAfter inComment c) cs
    if !inComment && isBracket c then c :: rest else rest

/-- The brackets of a text that are not in comments. -/
def brackets (cs : List Char) : List Char := bracketsFrom false cs

/-- Brackets are balanced and match in kind. -/
inductive Balanced : List Char → Prop where
  | nil : Balanced []
  | group {b : Bracket} {inner rest : List Char} (hinner : Balanced inner) (hrest : Balanced rest) :
      Balanced (b.opening :: (inner ++ b.closing :: rest))

variable {k : Bool} {cs ds : List Char} {c : Char}

lemma endsInComment_iff : EndsInComment cs ↔ cs.foldl commentAfter false = true := by
  induction cs using List.reverseRecOn with
  | nil => simp [EndsInComment]
  | append_singleton cs c ih =>
    rw [EndsInComment] at ih ⊢
    rw [List.rtakeWhile_concat, List.foldl_concat]
    by_cases hc : c = '\n'
    · cases cs.foldl commentAfter false <;> simp [hc, commentAfter]
    · rw [if_pos (by simpa using hc), List.mem_append, ih, List.mem_singleton]
      cases cs.foldl commentAfter false with
      | false => simpa [commentAfter] using eq_comm
      | true => simp [commentAfter, hc]

lemma not_endsInComment_iff : ¬ EndsInComment cs ↔ cs.foldl commentAfter false = false := by
  rw [endsInComment_iff, Bool.not_eq_true]

lemma bracketsFrom_append (k : Bool) (cs ds : List Char) :
    bracketsFrom k (cs ++ ds) =
      bracketsFrom k cs ++ bracketsFrom (cs.foldl commentAfter k) ds := by
  induction cs generalizing k with
  | nil => rfl
  | cons c cs ih =>
    simp only [List.cons_append, bracketsFrom, ih, List.foldl_cons]
    split <;> rfl

lemma bracketsFrom_cons_of_not_bracket (hc : k = true ∨ isBracket c = false) (cs : List Char) :
    bracketsFrom k (c :: cs) = bracketsFrom (commentAfter k c) cs := by
  rcases hc with rfl | hc <;> simp [bracketsFrom, *]

lemma brackets_cons_of_isBracket (hc : isBracket c = true) (cs : List Char) :
    brackets (c :: cs) = c :: brackets cs := by
  have hsemicolon : c ≠ ';' := by rintro rfl; cases hc
  simp [brackets, bracketsFrom, hc, commentAfter_of_ne hsemicolon]

lemma brackets_enclose (b : Bracket) (hcs : ¬ EndsInComment cs) :
    brackets (b.opening :: (cs ++ [b.closing])) = b.opening :: (brackets cs ++ [b.closing]) := by
  rw [brackets_cons_of_isBracket (isBracket_opening b), brackets, bracketsFrom_append,
    not_endsInComment_iff.mp hcs]
  exact congrArg _ (congrArg _ (brackets_cons_of_isBracket (isBracket_closing b) []))

lemma bracketsFrom_of_isWhiteSpace (hcs : ∀ c ∈ cs, isWhiteSpace c = true) :
    bracketsFrom k cs = [] := by
  induction cs generalizing k with
  | nil => rfl
  | cons c cs ih =>
    obtain ⟨hc, hcs⟩ := List.forall_mem_cons.mp hcs
    rw [bracketsFrom_cons_of_not_bracket (Or.inr (isBracket_of_isWhiteSpace hc)), ih hcs]

lemma Balanced.append (hcs : Balanced cs) (hds : Balanced ds) : Balanced (cs ++ ds) := by
  induction hcs with
  | nil => exact hds
  | group hinner _ _ ih =>
    rw [List.cons_append, List.append_assoc, List.cons_append]
    exact .group hinner ih

end Text

open Text

/-! ### The open groups of a text -/

/-- Groups are open where a text ends: each begins at an opening bracket outside comments, and after
it, up to the next one or the end, the brackets outside comments are balanced. -/
inductive Opened : List Char → List OpenGroup → Prop where
  | none {cs : List Char} (hcs : Balanced (brackets cs)) : Opened cs []
  | group {before after : List Char} {g : OpenGroup} {gs : List OpenGroup}
      (hbefore : Opened before gs) (hcode : ¬ EndsInComment before)
      (hstart : g.start = utf8Length before) (hafter : Balanced (brackets after)) :
      Opened (before ++ g.kind.opening :: after) (g :: gs)

namespace Opened

variable {cs ds before after : List Char} {g : OpenGroup} {gs : List OpenGroup}

lemma foldl_opening (b : Bracket) (hcode : ¬ EndsInComment before) :
    (before ++ b.opening :: after).foldl commentAfter false = after.foldl commentAfter false := by
  rw [List.foldl_append, not_endsInComment_iff.mp hcode, List.foldl_cons,
    commentAfter_of_ne b.opening_ne_semicolon]

/-- What is balanced may follow, and the same groups are open. -/
lemma append (h : Opened cs gs) (hds : Balanced (bracketsFrom (cs.foldl commentAfter false) ds)) :
    Opened (cs ++ ds) gs := by
  cases h with
  | none hcs => exact .none (by rw [brackets, bracketsFrom_append]; exact hcs.append hds)
  | group hbefore hcode hstart hafter =>
    rw [List.append_assoc, List.cons_append]
    refine .group hbefore hcode hstart ?_
    rw [foldl_opening _ hcode] at hds
    rw [brackets, bracketsFrom_append]
    exact hafter.append hds

/-- The right closing bracket, outside comments, closes the innermost group. -/
lemma close (h : Opened cs (g :: gs)) (hcode : ¬ EndsInComment cs) :
    Opened (cs ++ [g.kind.closing]) gs := by
  cases h with
  | @group before after _ _ hbefore hbeforeCode _ hafter =>
    have hafterCode : ¬ EndsInComment after := by
      rwa [not_endsInComment_iff, foldl_opening _ hbeforeCode, ← not_endsInComment_iff] at hcode
    rw [List.append_assoc, List.cons_append]
    refine hbefore.append ?_
    rw [not_endsInComment_iff.mp hbeforeCode]
    change Balanced (brackets _)
    rw [brackets_enclose g.kind hafterCode]
    exact .group hafter .nil

/-- The innermost open group, if the text is a source. -/
lemma exists_innermost {source : String} (h : Opened source.toList (g :: gs)) :
    ∃ before after : String, source = before ++ String.singleton g.kind.opening ++ after ∧
      g.start = before.utf8ByteSize ∧ ¬ EndsInComment before.toList ∧
      Balanced (brackets after.toList) := by
  generalize hsource : source.toList = cs at h
  cases h with
  | @group before after _ _ _ hcode hstart hafter =>
    refine ⟨.ofList before, .ofList after, ?_, ?_, ?_, ?_⟩
    · rw [← String.ofList_toList (s := source), hsource, String.singleton_eq_ofList,
        ← String.ofList_append, ← String.ofList_append, List.append_assoc, List.singleton_append]
    · rw [hstart, utf8ByteSize_ofList]
    · rwa [String.toList_ofList]
    · rwa [String.toList_ofList]

end Opened

namespace Scan

variable {s t : Scan} {c : Char} {cs ds : List Char}

/-- The groups that are open in a scan are those of the text that it has read. -/
structure HasRead (s : Scan) (cs : List Char) : Prop where
  pos : s.pos = utf8Length cs
  inComment : s.inComment = cs.foldl commentAfter false
  opened : Opened cs s.groups

lemma HasRead.init : Scan.init.HasRead [] := ⟨rfl, rfl, .none .nil⟩

lemma HasRead.not_endsInComment (hs : s.HasRead cs) (hplace : s.inComment = false) :
    ¬ EndsInComment cs := by
  rw [not_endsInComment_iff, ← hs.inComment, hplace]

lemma HasRead.step (hs : s.HasRead cs) (h : s.step c = some t) : t.HasRead (cs ++ [c]) := by
  obtain ⟨hcomment, hgroups⟩ := step_groups h
  refine ⟨?_, by rw [List.foldl_concat, ← hs.inComment, hcomment], ?_⟩
  · rw [step_pos h, hs.pos, utf8Length_append, utf8Length_cons, utf8Length_nil, Nat.add_zero]
  · rcases hgroups with ⟨hc, hgroups⟩ | ⟨hplace, ⟨b, rfl, hgroups⟩ | ⟨g, rfl, hgroups⟩⟩
    · rw [hgroups]
      refine hs.opened.append ?_
      rw [← hs.inComment, bracketsFrom_cons_of_not_bracket hc]
      exact .nil
    · rw [hgroups]
      exact .group (g := ⟨b, s.pos, s.settle.level⟩) hs.opened (hs.not_endsInComment hplace) hs.pos
        .nil
    · have hopened := hs.opened
      rw [hgroups] at hopened
      exact hopened.close (hs.not_endsInComment hplace)

lemma HasRead.run (hs : s.HasRead cs) (h : s.run ds = .ok t) : t.HasRead (cs ++ ds) := by
  induction ds generalizing s cs with
  | nil => cases h; rwa [List.append_nil]
  | cons c ds ih =>
    obtain ⟨u, hc, h⟩ := run_cons_eq_ok.mp h
    rw [← List.singleton_append, ← List.append_assoc]
    exact ih (hs.step hc) h

end Scan

/-! ### The search -/

namespace Nesting

variable {k : Bool} {pos : Nat} {openers : List Nat} {c : Char} {cs : List Char}

lemma stillOpenFrom_of_not_bracket (hc : k = true ∨ isBracket c = false) :
    stillOpenFrom pos openers k (c :: cs) =
      stillOpenFrom (pos + c.utf8Size) openers (commentAfter k c) cs := by
  cases k with
  | true => rfl
  | false =>
    obtain ⟨hopening, hclosing⟩ := Bool.or_eq_false_iff.mp (hc.resolve_left Bool.false_ne_true)
    by_cases hsemicolon : c = ';'
    · rw [hsemicolon]
      rfl
    · simp [stillOpenFrom, commentAfter_of_ne, hsemicolon, hopening, hclosing]

lemma stillOpenFrom_opening (b : Bracket) :
    stillOpenFrom pos openers false (b.opening :: cs) =
      stillOpenFrom (pos + b.opening.utf8Size) (pos :: openers) false cs := by
  simp [stillOpenFrom, isOpening, b.opening_ne_semicolon]

lemma stillOpenFrom_closing (b : Bracket) :
    stillOpenFrom pos openers false (b.closing :: cs) =
      stillOpenFrom (pos + b.closing.utf8Size) openers.tail false cs := by
  simp [stillOpenFrom, isOpening, isClosing, b.closing_ne_semicolon]

lemma stillOpenFrom_of_isWhiteSpace (hcs : ∀ c ∈ cs, isWhiteSpace c = true) :
    stillOpenFrom pos openers k cs = openers := by
  induction cs generalizing pos k with
  | nil => rfl
  | cons c cs ih =>
    obtain ⟨hc, hcs⟩ := List.forall_mem_cons.mp hcs
    rw [stillOpenFrom_of_not_bracket (Or.inr (isBracket_of_isWhiteSpace hc)), ih hcs]

end Nesting

namespace Scan

variable {s t : Scan} {c : Char} {cs : List Char}

/-- The offsets at which the open groups begin, the innermost first. -/
def openers (s : Scan) : List Nat := s.groups.map OpenGroup.start

/-- The search follows a scan: it does not compare kinds, but what it would miss stops the scan. -/
lemma stillOpenFrom_step (h : s.step c = some t) (ds : List Char) :
    Nesting.stillOpenFrom s.pos s.openers s.inComment (c :: ds) =
      Nesting.stillOpenFrom t.pos t.openers t.inComment ds := by
  obtain ⟨hcomment, hgroups⟩ := step_groups h
  rw [hcomment, step_pos h]
  rcases hgroups with ⟨hc, hgroups⟩ | ⟨hplace, ⟨b, rfl, hgroups⟩ | ⟨g, rfl, hgroups⟩⟩
  · rw [Nesting.stillOpenFrom_of_not_bracket hc, openers, openers, hgroups]
  · rw [hplace, Nesting.stillOpenFrom_opening, commentAfter_of_ne b.opening_ne_semicolon, openers,
      openers, hgroups, List.map_cons]
  · rw [hplace, Nesting.stillOpenFrom_closing, commentAfter_of_ne g.kind.closing_ne_semicolon,
      openers, openers, hgroups, List.map_cons, List.tail_cons]

lemma stillOpenFrom_run (h : s.run cs = .ok t) (ds : List Char) :
    Nesting.stillOpenFrom s.pos s.openers s.inComment (cs ++ ds) =
      Nesting.stillOpenFrom t.pos t.openers t.inComment ds := by
  induction cs generalizing s with
  | nil => cases h; rfl
  | cons c cs ih =>
    obtain ⟨u, hc, h⟩ := run_cons_eq_ok.mp h
    rw [List.cons_append, stillOpenFrom_step hc, ih h]

lemma lastOpen?_of_stuckAt {before after : String} (h : s.StuckAt before after)
    (hspace : ∀ c ∈ after.toList, isWhiteSpace c = true) :
    Nesting.lastOpen? (before ++ after).toList = s.openers.head? := by
  have hrun := stillOpenFrom_run h.run after.toList
  rw [Nesting.stillOpenFrom_of_isWhiteSpace hspace, ← String.toList_append] at hrun
  exact congrArg List.head? hrun

end Scan

lemma Tree.tooDeep?_eq_none_of_unclosed {source : String} {limit : Nat} {d : Char} {e : ParseError}
    (hparse : Tree.parse source limit = .error e) (hcause : e.cause = .unclosed d) :
    Nesting.tooDeep? limit source.toList = none := by
  rw [Option.eq_none_iff_forall_ne_some]
  rintro ⟨pos, depth⟩ htooDeep
  rw [Tree.parse_of_tooDeep? htooDeep] at hparse
  cases hparse
  cases hcause

/-- **The note is at the right bracket.** If a closing bracket is reported as missing, the
diagnostic has one note. It is at an opening bracket of the same kind that does not stand in a
comment, and the group that it opens is the innermost one open: the brackets after it that are not
in comments are balanced. -/
theorem note_is_at_innermost_opener (source : String) (limit : Nat) (d : Char) (e : ParseError)
    (hparse : Tree.parse source limit = .error e) (hcause : e.cause = .unclosed d) :
    ∃ (b : Bracket) (before after : String), d = b.closing ∧
      source = before ++ String.singleton b.opening ++ after ∧
      e.diagnostic.notes = [⟨⟨before.utf8ByteSize, before.utf8ByteSize + 1⟩,
        "Unclosed delimiter opened here"⟩] ∧
      ¬ EndsInComment before.toList ∧ Balanced (brackets after.toList) := by
  have hnesting := Tree.tooDeep?_eq_none_of_unclosed hparse hcause
  obtain ⟨s, text, space, rfl, hstuckAt, rfl, ⟨b, bs, hkinds, hd⟩, hspace⟩ :=
    (Tree.parse_unclosed_iff hnesting).mp ⟨hparse, hcause⟩
  obtain ⟨g, gs, hgroups⟩ := List.exists_cons_of_ne_nil (Scan.groups_ne_nil hkinds)
  have hopened := (Scan.HasRead.init.run hstuckAt.run).opened
  rw [List.nil_append, hgroups] at hopened
  have hopened : Opened (text ++ space).toList (g :: gs) := by
    rw [String.toList_append]
    exact hopened.append (by rw [bracketsFrom_of_isWhiteSpace hspace]; exact .nil)
  obtain ⟨before, after, hsource, hstart, hcode, hafter⟩ := hopened.exists_innermost
  refine ⟨g.kind, before, after, ?_, hsource, ?_, hcode, hafter⟩
  · rw [Scan.openKinds, hgroups] at hkinds
    rw [hd, ← (List.cons.inj hkinds).1]
  · have hlast := Scan.lastOpen?_of_stuckAt hstuckAt hspace
    rw [Scan.openers, hgroups, List.map_cons, List.head?_cons, hstart] at hlast
    change (Scan.parseError _ s).cause.notes (text ++ space) = _
    rw [hcause, ParseError.Cause.notes, hlast]

/-- The list is the innermost group open, and what opens in the comment does not count. -/
theorem note_is_at_innermost_opener_comment :
    ∃ e, Tree.parse "(+ \x7b1\x7d (list 2 ; \x7b(\n" 3 = .error e ∧ e.cause = .unclosed ')' ∧
      ∃ (b : Bracket) (before after : String), ')' = b.closing ∧
        "(+ \x7b1\x7d (list 2 ; \x7b(\n" = before ++ String.singleton b.opening ++ after ∧
        e.diagnostic.notes = [⟨⟨before.utf8ByteSize, before.utf8ByteSize + 1⟩,
          "Unclosed delimiter opened here"⟩] ∧
        ¬ EndsInComment before.toList ∧ Balanced (brackets after.toList) :=
  ⟨_, rfl, rfl, note_is_at_innermost_opener _ 3 ')' _ rfl rfl⟩

example : (ParseError.Cause.unclosed ')').notes "(+ \x7b1\x7d (list 2 ; \x7b(\n" =
    [⟨⟨7, 8⟩, "Unclosed delimiter opened here"⟩] := rfl

end BraceLisp
