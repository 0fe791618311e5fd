import BraceLisp.Proofs.OpenBrackets

/-!
The programs that lines hold.

Lines fall into blocks: a block is open as long as brackets are open after each of its lines, and
it is closed by the first line after which none are. The buffer holds the text of the open block.
It takes an empty text to mean that no line is pending, which is right because the text of an open
block is not empty (`Holds.isEmpty_eq`). So one line either goes to the open block or closes it
(`Holds.push_of_open`, `Holds.push_of_closed`), and all lines come out again in their blocks
(`Holds.pushAll`).
-/

namespace BraceLisp

/-- The lexemes of the text can be told, and they leave brackets open. -/
def LeavesOpen (text : String) : Prop := ∃ n, openBrackets? text = some n ∧ 0 < n

lemma isIncomplete_iff {text : String} : isIncomplete text = true ↔ LeavesOpen text := by
  unfold isIncomplete LeavesOpen
  cases openBrackets? text with
  | none => simp
  | some n => simp

lemma not_leavesOpen_empty : ¬ LeavesOpen "" := by
  have hscan : Lexeme.scan "" = [] := Lexeme.scanFrom_nil
  rintro ⟨n, hn, hpos⟩
  rw [openBrackets?, hscan] at hn
  cases hn
  exact Nat.lt_irrefl 0 hpos

namespace LineBuffer

/-- Lines as one text. -/
def joinLines (lines : List String) : String := "\n".intercalate lines

/-- A block to which the next line belongs, whatever that is. -/
def Open (block : List String) : Prop :=
  ∀ lines, lines <+: block → lines ≠ [] → LeavesOpen (joinLines lines)

/-- A block that ends with its last line, and not before. -/
structure Closed (block : List String) : Prop where
  ne_nil : block ≠ []
  before : Open block.dropLast
  complete : ¬ LeavesOpen (joinLines block)

/-- The answers to the lines of a closed block: its text comes with the last line. -/
def answers (block : List String) : List (Option String) :=
  List.replicate (block.length - 1) none ++ [some (joinLines block)]

/-- Lines are cut into closed blocks and a last one that is open, and has no line if the lines
end with a closed block. -/
structure Cut (lines : List String) (blocks : List (List String)) (last : List String) : Prop where
  lines_eq : lines = blocks.flatten ++ last
  closed : ∀ block ∈ blocks, Closed block
  opened : Open last

/-- The buffer holds the text of an open block. -/
structure Holds (b : LineBuffer) (block : List String) : Prop where
  opened : Open block
  pending_eq : b.pending = joinLines block

variable {b : LineBuffer} {block last : List String} {blocks : List (List String)} {line : String}

/-! ### Blocks -/

lemma open_nil : Open [] := fun _ hprefix hne => absurd (List.prefix_nil.mp hprefix) hne

lemma Open.snoc (h : Open block) (hline : LeavesOpen (joinLines (block ++ [line]))) :
    Open (block ++ [line]) := by
  intro lines hprefix hne
  rcases List.prefix_concat_iff.mp hprefix with rfl | hprefix
  · exact hline
  · exact h lines hprefix hne

lemma Open.close (h : Open block) (hline : ¬ LeavesOpen (joinLines (block ++ [line]))) :
    Closed (block ++ [line]) where
  ne_nil := by simp
  before := by rwa [List.dropLast_concat]
  complete := hline

lemma joinLines_snoc (h : block ≠ []) (line : String) :
    joinLines (block ++ [line]) = joinLines block ++ "\n" ++ line := by
  rw [joinLines, String.intercalate_append_of_ne_nil h (List.cons_ne_nil _ _),
    String.intercalate_singleton]
  rfl

/-- The texts of blocks make up the text of their lines. -/
lemma joinLines_flatten (h : ∀ block ∈ blocks, block ≠ []) :
    joinLines (blocks.map joinLines) = joinLines blocks.flatten := by
  induction blocks with
  | nil => rfl
  | cons block blocks ih =>
    obtain ⟨hblock, hblocks⟩ := List.forall_mem_cons.mp h
    by_cases hnil : blocks = []
    · subst hnil
      simp [joinLines]
    · have hflatten : blocks.flatten ≠ [] := by
        obtain ⟨c, cs, rfl⟩ := List.exists_cons_of_ne_nil hnil
        exact List.append_ne_nil_of_left_ne_nil (hblocks c List.mem_cons_self) _
      have hmap : blocks.map joinLines ≠ [] := by simpa using hnil
      rw [List.flatten_cons, joinLines, joinLines,
        String.intercalate_append_of_ne_nil hblock hflatten, List.map_cons,
        String.intercalate_cons_of_ne_nil hmap]
      exact congrArg (joinLines block ++ "\n" ++ ·) (ih hblocks)

lemma filterMap_answers (blocks : List (List String)) (n : Nat) :
    (blocks.flatMap answers ++ List.replicate n none).filterMap id = blocks.map joinLines := by
  induction blocks with
  | nil => simp
  | cons block blocks ih =>
    rw [List.flatMap_cons, List.append_assoc, List.filterMap_append, ih, List.map_cons]
    simp [answers]

/-! ### The buffer -/

lemma holds_empty : Holds empty [] := ⟨open_nil, rfl⟩

/-- No text is pending exactly if no line is. -/
lemma Holds.isEmpty_eq (h : Holds b block) : b.pending.isEmpty = block.isEmpty := by
  rw [h.pending_eq]
  cases block with
  | nil => rfl
  | cons line block =>
    rw [List.isEmpty_cons, Bool.eq_false_iff]
    intro hempty
    have hopen := h.opened (line :: block) (List.prefix_refl _) (List.cons_ne_nil _ _)
    rw [String.isEmpty_iff.mp hempty] at hopen
    exact not_leavesOpen_empty hopen

/-- The text with a line added is that of the block with the line added. -/
lemma Holds.joined_eq (h : Holds b block) (line : String) :
    b.joined line = joinLines (block ++ [line]) := by
  rw [joined, h.isEmpty_eq]
  cases block with
  | nil => simp [joinLines]
  | cons first block => rw [joinLines_snoc (List.cons_ne_nil _ _), h.pending_eq]; rfl

lemma Holds.push_of_open (h : Holds b block) (hline : LeavesOpen (joinLines (block ++ [line]))) :
    b.push line = (none, ⟨joinLines (block ++ [line])⟩) ∧
      Holds ⟨joinLines (block ++ [line])⟩ (block ++ [line]) := by
  rw [push_of_isIncomplete, h.joined_eq, if_pos (isIncomplete_iff.mpr hline)]
  exact ⟨rfl, h.opened.snoc hline, rfl⟩

lemma Holds.push_of_closed (h : Holds b block)
    (hline : ¬ LeavesOpen (joinLines (block ++ [line]))) :
    b.push line = (some (joinLines (block ++ [line])), empty) := by
  rw [push_of_isIncomplete, h.joined_eq, if_neg (fun hopen => hline (isIncomplete_iff.mp hopen))]

lemma pushAll_cons {lines : List String} {answer : Option String} {c : LineBuffer}
    (h : b.push line = (answer, c)) :
    b.pushAll (line :: lines) = (answer :: (c.pushAll lines).1, (c.pushAll lines).2) := by
  rw [pushAll, h]

/-- The lines of the open block come first, as they have been answered already. -/
lemma Holds.pushAll (h : Holds b block) (lines : List String) :
    ∃ blocks last, Cut (block ++ lines) blocks last ∧ Holds (b.pushAll lines).2 last ∧
      List.replicate block.length none ++ (b.pushAll lines).1 =
        blocks.flatMap answers ++ List.replicate last.length none := by
  induction lines generalizing b block with
  | nil =>
    refine ⟨[], block, ⟨by simp, nofun, h.opened⟩, h, ?_⟩
    simp [LineBuffer.pushAll]
  | cons line lines ih =>
    by_cases hline : LeavesOpen (joinLines (block ++ [line]))
    · obtain ⟨hpush, hholds⟩ := h.push_of_open hline
      obtain ⟨blocks, last, hcut, hlast, hanswers⟩ := ih hholds
      rw [List.append_assoc, List.singleton_append] at hcut
      rw [pushAll_cons hpush]
      refine ⟨blocks, last, hcut, hlast, ?_⟩
      rw [← hanswers, List.length_append, List.length_singleton, List.replicate_succ',
        List.append_assoc, List.singleton_append]
    · obtain ⟨blocks, last, hcut, hlast, hanswers⟩ := ih holds_empty
      have hclosed := h.opened.close hline
      rw [pushAll_cons (h.push_of_closed hline)]
      refine ⟨(block ++ [line]) :: blocks, last, ⟨?_, ?_, hcut.opened⟩, hlast, ?_⟩
      · rw [List.flatten_cons, List.append_assoc, ← hcut.lines_eq]
        simp
      · exact List.forall_mem_cons.mpr ⟨hclosed, hcut.closed⟩
      · rw [List.flatMap_cons, List.append_assoc, ← hanswers]
        simp [answers]

lemma Holds.finish_eq (h : Holds b block) :
    b.finish = if block = [] then none else some (joinLines block) := by
  rw [finish, h.isEmpty_eq, h.pending_eq]
  simp only [List.isEmpty_iff]

/-- **Lines are neither lost nor doubled.** Lines that are pushed one after another into an empty
buffer are cut into blocks. Each block but an open one at the end comes out with its last line, as
the text of its lines, and there is no answer to any other line. The text of the open block is
left for the end, if it has a line. So the programs together are the text of all lines. -/
theorem programs_are_blocks_of_lines (lines : List String) :
    ∃ blocks last, Cut lines blocks last ∧
      (empty.pushAll lines).1 = blocks.flatMap answers ++ List.replicate last.length none ∧
      (empty.pushAll lines).2.finish = (if last = [] then none else some (joinLines last)) ∧
      programs lines = (blocks ++ if last = [] then [] else [last]).map joinLines ∧
      joinLines (programs lines) = joinLines lines := by
  obtain ⟨blocks, last, hcut, hlast, hanswers⟩ := holds_empty.pushAll lines
  rw [List.nil_append] at hcut
  rw [List.length_nil, List.replicate_zero, List.nil_append] at hanswers
  have hfinish := hlast.finish_eq
  have hprograms : programs lines = (blocks ++ if last = [] then [] else [last]).map joinLines := by
    have hunfold : programs lines = (empty.pushAll lines).1.filterMap id ++
        (empty.pushAll lines).2.finish.toList := rfl
    rw [hunfold, hanswers, filterMap_answers, hfinish, List.map_append]
    split <;> rfl
  refine ⟨blocks, last, hcut, hanswers, hfinish, hprograms, ?_⟩
  have hne : ∀ block ∈ blocks ++ (if last = [] then [] else [last]), block ≠ [] := by
    refine List.forall_mem_append.mpr ⟨fun block hblock => (hcut.closed block hblock).ne_nil, ?_⟩
    split
    · exact nofun
    · next hlast => exact List.forall_mem_singleton.mpr hlast
  rw [hprograms, joinLines_flatten hne, hcut.lines_eq, List.flatten_append]
  split
  · next hlast => rw [hlast]; rfl
  · rw [List.flatten_singleton]

/-- An empty line, a group over three lines of which one is empty, a line that no lexeme explains,
and a group that is left open. -/
example : programs ["", "(1", "", "2)", "(\"", "\x7b1 ; \x7d"] =
    ["", "(1\n\n2)", "(\"", "\x7b1 ; \x7d"] := by decide +kernel

end LineBuffer

end BraceLisp
