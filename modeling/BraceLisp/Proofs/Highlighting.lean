import BraceLisp.Highlight
import BraceLisp.Proofs.Lossless

/-!
A line in colours is the line.

The lexemes of a line tile it: each begins where the one before has ended or after spaces, and
nothing but spaces is left at the end (`Lexeme.tiles_scanFrom`). The parts in colours follow the
tiling. What they cover is put together from spaces and single lexemes (`Highlight.Covers.append`),
so that one induction over the tiling says all about them.
-/

namespace BraceLisp

namespace Text

/-- The slice between two offsets can be taken: they are in order, and at each of them a character
begins or the text ends. -/
structure InBounds (cs : List Char) (span : Span) : Prop where
  le : span.start ≤ span.stop
  start : IsBoundary cs span.start
  stop : IsBoundary cs span.stop

lemma GoesOn.inBounds {source cs ds : List Char} {pos : Nat} (h : GoesOn source pos (cs ++ ds)) :
    InBounds source ⟨pos, pos + utf8Length cs⟩ :=
  ⟨Nat.le_add_right _ _, h.isBoundary, h.append.isBoundary⟩

end Text

open Text

namespace Lexeme

/-- A run of the characters between lexemes. -/
def IsSpaces (g : List Char) : Prop := ∀ c ∈ g, isSpace c = true

/-- The text `cs`, which stands at the offset `pos`, is made of lexemes, with spaces before each of
them and at the end. An invalid lexeme is one character. -/
inductive Tiles : Nat → List Char → List Lexeme → Prop where
  | nil {pos : Nat} {g : List Char} (hgap : IsSpaces g) : Tiles pos g []
  | lexeme {pos : Nat} {k : Kind} {g w cs : List Char} {c : Char} {ls : List Lexeme}
      (hgap : IsSpaces g) (hspace : isSpace c = false) (hinvalid : k = .invalid → w = [])
      (hrest : Tiles (pos + utf8Length g + utf8Length (c :: w)) cs ls) :
      Tiles pos (g ++ (c :: w ++ cs))
        (⟨k, ⟨pos + utf8Length g, pos + utf8Length g + utf8Length (c :: w)⟩⟩ :: ls)

/-- The spans between two offsets that lexemes leave out: one before each lexeme, and one after the
last. -/
def gaps (start stop : Nat) : List Lexeme → List Span
  | [] => [⟨start, stop⟩]
  | l :: ls => ⟨start, l.span.start⟩ :: gaps l.span.stop stop ls

variable {pos : Nat} {source cs ds g : List Char} {c : Char} {ls : List Lexeme}

/-! ### Lexemes tile the line -/

/-- A kind that matches nothing is not the longest of others, unless it has been the best before
them. -/
lemma Kind.longest_eq_best {best : Kind × Nat} {ks : List Kind} (hks : .invalid ∉ ks)
    (h : (longest cs best ks).1 = .invalid) : longest cs best ks = best := by
  induction ks generalizing best with
  | nil => rfl
  | cons k ks ih =>
    rw [List.mem_cons, not_or] at hks
    rw [longest] at h ⊢
    have hbest := ih hks.2 h
    split at hbest
    · next hlt =>
      rw [if_pos hlt, hbest] at h
      exact absurd h.symm hks.1
    · next hlt => rw [if_neg hlt, hbest]

/-- An invalid lexeme is one character, whatever follows it. -/
lemma first_invalid {n : Nat} (h : first cs = (.invalid, n)) : n = 1 := by
  have hkind : (Kind.longest cs (.invalid, 0) Kind.all).1 = .invalid := congrArg Prod.fst h
  have hn : max (Kind.longest cs (.invalid, 0) Kind.all).2 1 = n := congrArg Prod.snd h
  rw [Kind.longest_eq_best (by decide) hkind] at hn
  exact hn.symm

lemma Tiles.space (hc : isSpace c = true) (h : Tiles (pos + c.utf8Size) cs ls) :
    Tiles pos (c :: cs) ls := by
  cases h with
  | nil hgap => exact .nil (List.forall_mem_cons.mpr ⟨hc, hgap⟩)
  | @lexeme _ k g w cs d ls hgap hspace hinvalid hrest =>
    have hpos : pos + c.utf8Size + utf8Length g = pos + utf8Length (c :: g) := by
      rw [utf8Length_cons, Nat.add_assoc]
    rw [hpos] at hrest ⊢
    exact .lexeme (g := c :: g) (List.forall_mem_cons.mpr ⟨hc, hgap⟩) hspace hinvalid hrest

lemma tiles_scanFrom (pos : Nat) (cs : List Char) : Tiles pos cs (scanFrom pos cs) := by
  induction pos, cs using scanFrom.induct with
  | case1 pos =>
    rw [scanFrom_nil]
    exact .nil nofun
  | case2 pos c cs hspace ih =>
    rw [scanFrom_space hspace]
    exact ih.space hspace
  | case3 pos c cs hspace k n hfirst stop ih =>
    obtain ⟨n, rfl, -⟩ := exists_of_first hfirst
    have hspace : isSpace c = false := by simpa using hspace
    have hinvalid : k = .invalid → cs.take n = [] := by
      rintro rfl
      rw [Nat.succ_inj.mp (first_invalid hfirst), List.take_zero]
    rw [Nat.add_sub_cancel] at ih
    rw [scanFrom_first hspace hfirst]
    have htiles := @Tiles.lexeme pos k [] (cs.take n) (cs.drop n) c _ nofun hspace hinvalid ih
    rwa [List.nil_append, List.cons_append, List.take_append_drop] at htiles

/-! ### What a tiling says -/

lemma Tiles.inBounds (h : Tiles pos cs ls) (hcs : GoesOn source pos cs) :
    ∀ l ∈ ls, InBounds source l.span ∧ pos ≤ l.span.start ∧ l.span.start < l.span.stop := by
  induction h with
  | nil => exact nofun
  | @lexeme pos k g w cs c ls _ _ _ _ ih =>
    have hword : 0 < utf8Length (c :: w) := utf8Length_pos (List.cons_ne_nil c w)
    refine List.forall_mem_cons.mpr ⟨?_, fun l hl => ?_⟩
    · exact ⟨hcs.append.inBounds, Nat.le_add_right _ _, Nat.lt_add_of_pos_right hword⟩
    · obtain ⟨hbounds, hle, hlt⟩ := ih hcs.append.append l hl
      exact ⟨hbounds, by omega, hlt⟩

lemma Tiles.ordered (h : Tiles pos cs ls) (hcs : GoesOn source pos cs) :
    ls.Pairwise (·.span.stop ≤ ·.span.start) := by
  induction h with
  | nil => exact .nil
  | lexeme _ _ _ hrest ih =>
    refine .cons (fun l hl => ?_) (ih hcs.append.append)
    exact (hrest.inBounds hcs.append.append l hl).2.1

lemma Tiles.gaps (h : Tiles pos cs ls) (hcs : GoesOn source pos cs) :
    ∀ gap ∈ gaps pos (pos + utf8Length cs) ls,
      InBounds source gap ∧ IsSpaces (slice gap.start gap.stop source) := by
  induction h with
  | @nil pos g hgap =>
    rw [← List.append_nil g] at hcs
    refine List.forall_mem_singleton.mpr ⟨hcs.inBounds, ?_⟩
    rwa [hcs.slice]
  | @lexeme pos k g w cs c ls hgap _ _ _ ih =>
    refine List.forall_mem_cons.mpr ⟨⟨hcs.inBounds, ?_⟩, ?_⟩
    · rwa [hcs.slice]
    · have hstop : pos + utf8Length (g ++ (c :: w ++ cs)) =
          pos + utf8Length g + utf8Length (c :: w) + utf8Length cs := by
        rw [utf8Length_append, utf8Length_append, Nat.add_assoc, Nat.add_assoc]
      rw [hstop]
      exact ih hcs.append.append

lemma Tiles.invalid (h : Tiles pos cs ls) (hcs : GoesOn source pos cs) :
    ∀ l ∈ ls, l.kind = .invalid → ∃ c, slice l.span.start l.span.stop source = [c] := by
  induction h with
  | nil => exact nofun
  | @lexeme pos k g w cs c ls _ _ hinvalid _ ih =>
    refine List.forall_mem_cons.mpr ⟨fun hk => ⟨c, ?_⟩, ih hcs.append.append⟩
    rw [hcs.append.slice, hinvalid hk]

end Lexeme

/-! ### Parts -/

lemma Builtin.ofName?_isSome_iff {s : String} : (ofName? s).isSome = true ↔ ∃ b, name b = s := by
  have hall : ∀ b, b ∈ all := by
    intro b
    cases b with
    | define reach => cases reach <;> decide
    | arithmetic op => cases op <;> decide
    | _ => decide
  simp [ofName?, hall]

namespace Highlight

/-- Nothing but spaces. -/
def Part.isBlank (p : Part) : Bool := p.text.toList.all Lexeme.isSpace

/-- The text of a lexeme in the colour of its kind. -/
def Part.ofLexeme (source : List Char) (l : Lexeme) : Part :=
  let text := String.ofList (slice l.span.start l.span.stop source)
  ⟨Highlight.colour text l.kind, text⟩

lemma colour_eq_magenta_iff {text : String} {k : Lexeme.Kind} :
    colour text k = .magenta ↔ k = .symbol ∧ ∃ b : Builtin, b.name = text := by
  rw [← Builtin.ofName?_isSome_iff]
  cases k with
  | opening b => cases b <;> simp [colour]
  | closing b => cases b <;> simp [colour]
  | symbol =>
    rw [colour]
    split
    · next h => simp [h]
    · next h => simp [h]
  | _ => simp [colour]

/-- The parts have the text `cs`, and they are those of the lexemes and blank ones. -/
structure Covers (source cs : List Char) (ls : List Lexeme) (ps : List Part) : Prop where
  text_eq : String.join (ps.map Part.text) = String.ofList cs
  nonempty : ∀ p ∈ ps, p.text ≠ ""
  lexemes : ps.filter (!·.isBlank) = ls.map (.ofLexeme source)
  white : ∀ p ∈ ps, p.isBlank = true → p.colour = .white

variable {pos : Nat} {source cs ds g : List Char} {ls ms : List Lexeme} {ps qs : List Part}

lemma Covers.append (h : Covers source cs ls ps) (h' : Covers source ds ms qs) :
    Covers source (cs ++ ds) (ls ++ ms) (ps ++ qs) where
  text_eq := by
    rw [List.map_append, String.join_append, h.text_eq, h'.text_eq, String.ofList_append]
  nonempty := List.forall_mem_append.mpr ⟨h.nonempty, h'.nonempty⟩
  lexemes := by rw [List.filter_append, h.lexemes, h'.lexemes, List.map_append]
  white := List.forall_mem_append.mpr ⟨h.white, h'.white⟩

lemma covers_singleton {p : Part} (hcs : cs ≠ []) (htext : p.text = String.ofList cs)
    (hlexemes : [p].filter (!·.isBlank) = ls.map (.ofLexeme source))
    (hwhite : p.isBlank = true → p.colour = .white) : Covers source cs ls [p] where
  text_eq := by simp [String.join, htext]
  nonempty := List.forall_mem_singleton.mpr (by rw [htext]; simpa using hcs)
  lexemes := hlexemes
  white := List.forall_mem_singleton.mpr hwhite

lemma covers_plain (hcs : GoesOn source pos (g ++ cs)) (hgap : Lexeme.IsSpaces g) :
    Covers source g [] (plain source pos (pos + utf8Length g)) := by
  by_cases hg : g = []
  · subst hg
    rw [plain, utf8Length_nil, Nat.add_zero, if_neg (Nat.lt_irrefl pos)]
    exact ⟨rfl, nofun, rfl, nofun⟩
  · have hblank : Part.isBlank ⟨.white, String.ofList g⟩ = true := by
      simpa [Part.isBlank, Lexeme.IsSpaces] using hgap
    rw [plain, if_pos (Nat.lt_add_of_pos_right (utf8Length_pos hg)), hcs.slice]
    exact covers_singleton hg rfl (by simp [hblank]) fun _ => rfl

lemma covers_lexeme (k : Lexeme.Kind) {c : Char} {w : List Char}
    (hcs : GoesOn source pos (c :: w ++ cs)) (hspace : Lexeme.isSpace c = false) :
    Covers source (c :: w) [⟨k, ⟨pos, pos + utf8Length (c :: w)⟩⟩]
      [.ofLexeme source ⟨k, ⟨pos, pos + utf8Length (c :: w)⟩⟩] := by
  have htext : (Part.ofLexeme source ⟨k, ⟨pos, pos + utf8Length (c :: w)⟩⟩).text =
      String.ofList (c :: w) := congrArg String.ofList hcs.slice
  have hblank : (Part.ofLexeme source ⟨k, ⟨pos, pos + utf8Length (c :: w)⟩⟩).isBlank = false := by
    rw [Part.isBlank, htext, String.toList_ofList, List.all_cons, hspace, Bool.false_and]
  refine covers_singleton (List.cons_ne_nil c w) htext ?_ fun h => ?_
  · rw [List.filter_cons_of_pos (by rw [hblank]; rfl)]
    rfl
  · rw [hblank] at h
    cases h

/-- The parts of what is left of a line. -/
lemma covers_partsFrom (h : Lexeme.Tiles pos cs ls) (hcs : GoesOn source pos cs)
    (hend : pos + utf8Length cs = utf8Length source) :
    Covers source cs ls (partsFrom source pos ls) := by
  induction h with
  | @nil pos g hgap =>
    rw [partsFrom, ← hend]
    rw [← List.append_nil g] at hcs
    exact covers_plain hcs hgap
  | @lexeme pos k g w cs c ls hgap hspace _ _ ih =>
    have hlast : pos + utf8Length g + utf8Length (c :: w) + utf8Length cs = utf8Length source := by
      rw [← hend, utf8Length_append, utf8Length_append, Nat.add_assoc, Nat.add_assoc]
    have hword := (covers_lexeme k hcs.append hspace).append (ih hcs.append.append hlast)
    exact (covers_plain hcs hgap).append hword

/-- **Colours leave the line as it is.** The lexemes of a line are not empty, and they stand one
after another between characters of the line. Between them there is nothing but spaces, and an
invalid one is a single character. So every slice that is taken can be taken. The parts of the line
make up the line, and none is empty. Those that are not blank are the lexemes in the colours of
their kinds, where the names of builtins among the symbols, and nothing else, are magenta. -/
theorem highlighting_keeps_line (line : String) :
    (∀ l ∈ Lexeme.scan line, InBounds line.toList l.span ∧ l.span.start < l.span.stop) ∧
    (Lexeme.scan line).Pairwise (·.span.stop ≤ ·.span.start) ∧
    (∀ gap ∈ Lexeme.gaps 0 line.utf8ByteSize (Lexeme.scan line), InBounds line.toList gap ∧
      Lexeme.IsSpaces (slice gap.start gap.stop line.toList)) ∧
    (∀ l ∈ Lexeme.scan line, l.kind = .invalid →
      ∃ c, slice l.span.start l.span.stop line.toList = [c]) ∧
    String.join ((parts line).map Part.text) = line ∧
    (∀ p ∈ parts line, p.text ≠ "") ∧
    (parts line).filter (!·.isBlank) = (Lexeme.scan line).map (.ofLexeme line.toList) ∧
    (∀ p ∈ parts line, p.isBlank = true → p.colour = .white) ∧
    ∀ l ∈ Lexeme.scan line, (Part.ofLexeme line.toList l).colour = .magenta ↔
      l.kind = .symbol ∧ ∃ b : Builtin, b.name = (Part.ofLexeme line.toList l).text := by
  have hline : GoesOn line.toList 0 line.toList := ⟨[], rfl, rfl⟩
  have htiles : Lexeme.Tiles 0 line.toList (Lexeme.scan line) := Lexeme.tiles_scanFrom 0 line.toList
  have hcovers : Covers line.toList line.toList (Lexeme.scan line) (parts line) :=
    covers_partsFrom htiles hline (Nat.zero_add _)
  have hgaps := htiles.gaps hline
  rw [Nat.zero_add, utf8Length_toList] at hgaps
  refine ⟨fun l hl => ?_, htiles.ordered hline, hgaps, htiles.invalid hline, ?_, hcovers.nonempty,
    hcovers.lexemes, hcovers.white, fun l _ => colour_eq_magenta_iff⟩
  · obtain ⟨hbounds, -, hlt⟩ := htiles.inBounds hline l hl
    exact ⟨hbounds, hlt⟩
  · rw [hcovers.text_eq, String.ofList_toList]

/-- A letter that begins no lexeme, and the name of a builtin. -/
theorem highlighting_keeps_line_letter :
    Lexeme.scan "é head" = [⟨.invalid, ⟨0, 2⟩⟩, ⟨.symbol, ⟨3, 7⟩⟩] ∧
    parts "é head" = [⟨.red, "é"⟩, ⟨.white, " "⟩, ⟨.magenta, "head"⟩] ∧
    (∃ c, slice 0 2 "é head".toList = [c]) ∧
    ((Part.ofLexeme "é head".toList ⟨.symbol, ⟨3, 7⟩⟩).colour = .magenta ↔
      Lexeme.Kind.symbol = .symbol ∧
        ∃ b : Builtin, b.name = (Part.ofLexeme "é head".toList ⟨.symbol, ⟨3, 7⟩⟩).text) := by
  have hscan : Lexeme.scan "é head" = [⟨.invalid, ⟨0, 2⟩⟩, ⟨.symbol, ⟨3, 7⟩⟩] := by decide +kernel
  have hparts : parts "é head" = [⟨.red, "é"⟩, ⟨.white, " "⟩, ⟨.magenta, "head"⟩] := by
    decide +kernel
  obtain ⟨-, -, -, hinvalid, -, -, -, -, hmagenta⟩ := highlighting_keeps_line "é head"
  rw [hscan] at hinvalid hmagenta
  exact ⟨hscan, hparts, hinvalid _ List.mem_cons_self rfl,
    hmagenta ⟨.symbol, ⟨3, 7⟩⟩ (List.mem_cons_of_mem _ List.mem_cons_self)⟩

end Highlight

end BraceLisp
