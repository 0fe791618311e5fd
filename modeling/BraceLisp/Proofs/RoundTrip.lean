import BraceLisp.Proofs.Depth
import BraceLisp.Proofs.Printable

/-!
Printing and reading are inverse on data.

What a text adds to the forms of a scan is composed from what its parts add (`Scan.Reads`), and
so is how deep it nests (`Nesting.Fits`). The text of a printable value is put together from
words, spaces and brackets, and both judgements follow it.
-/

namespace BraceLisp

open Grammar

namespace Value

/-! ### The text of a value -/

lemma toList_enclose (b : Bracket) (s : String) :
    (b.enclose s).toList = b.opening :: (s.toList ++ [b.closing]) := by
  simp [Bracket.enclose]

lemma toList_renderAll_cons (v w : Value) (vs : List Value) :
    (renderAll (v :: w :: vs)).toList =
      v.render.toList ++ ' ' :: (renderAll (w :: vs)).toList := by
  simp [renderAll]

end Value

/-! ### What a text reads as -/

namespace Scan

/-- Read from a gap on, the text adds forms of the values `vs` to the level, and the groups that
are open stay as they are. -/
def Reads (cs : List Char) (vs : List Value) : Prop :=
  ∀ s : Scan, s.place = .gap → ∃ t fs, s.run cs = .ok t ∧ t.place ≠ .comment ∧
    t.groups = s.groups ∧ t.settle.level = fs.reverse ++ s.level ∧ Form.values fs = vs

variable {cs ds : List Char} {vs ws : List Value}

lemma Reads.nil : Reads [] [] := by
  intro s hs
  refine ⟨s, [], rfl, ?_, rfl, ?_, rfl⟩
  · rw [hs]; exact (nomatch ·)
  · rw [settle_of_gap hs]; rfl

lemma Reads.word {v : Value} (hcs : IsWord cs) (hv : ∀ start, (Form.word start cs).value = v) :
    Reads cs [v] := by
  intro s hs
  refine ⟨_, [Form.word s.pos cs], run_word hs hcs, (nomatch ·), rfl, ?_, ?_⟩
  · simp [settle]
  · rw [Form.values, hv]; rfl

/-- A space between two texts keeps their words apart. -/
lemma Reads.space (h : Reads cs vs) (h' : Reads ds ws) :
    Reads (cs ++ ' ' :: ds) (vs ++ ws) := by
  intro s hs
  obtain ⟨t, fs, hrun, hplace, hgroups, hlevel, rfl⟩ := h s hs
  have hstep : t.step ' ' = some { t.settle with pos := t.settle.pos + ' '.utf8Size } := by
    rw [step_of_not_symbolChar hplace rfl, start_blank _ rfl]
  obtain ⟨u, gs, hrun', hplace', hgroups', hlevel', rfl⟩ :=
    h' { t.settle with pos := t.settle.pos + ' '.utf8Size } (settle_place hplace)
  refine ⟨u, fs ++ gs, ?_, hplace', ?_, ?_, ?_⟩
  · rw [run_append, hrun, Except.bind, run_cons_of_step hstep, hrun']
  · rw [hgroups', settle_groups, hgroups]
  · rw [hlevel', hlevel, List.reverse_append, List.append_assoc]
  · rw [Form.values_append]

/-- A text between brackets reads as the list of what it reads as by itself. -/
lemma Reads.enclose (b : Bracket) (h : Reads cs vs) :
    Reads (b.opening :: (cs ++ [b.closing])) [b.list vs] := by
  intro s hs
  have hopen : s.step b.opening =
      some ⟨s.pos + 1, .gap, [], ⟨b, s.pos, s.level⟩ :: s.groups⟩ := by
    rw [step, hs]
    exact start_opening s b
  obtain ⟨t, fs, hrun, hplace, hgroups, hlevel, rfl⟩ :=
    h ⟨s.pos + 1, .gap, [], ⟨b, s.pos, s.level⟩ :: s.groups⟩ rfl
  have hclose : t.step b.closing = some ⟨t.pos + 1, .gap,
      .group b ⟨s.pos, t.pos + 1⟩ fs :: s.level, s.groups⟩ := by
    rw [step_of_not_symbolChar hplace b.isSymbolChar_closing, start_closing]
    simp [close, hgroups, hlevel]
  refine ⟨⟨t.pos + 1, .gap, .group b ⟨s.pos, t.pos + 1⟩ fs :: s.level, s.groups⟩,
    [.group b ⟨s.pos, t.pos + 1⟩ fs], ?_, by simp, rfl, rfl, rfl⟩
  rw [run_cons_of_step hopen, run_append, hrun, Except.bind, run_cons_of_step hclose]
  rfl

/-- The values of a whole text are those of its program. -/
lemma Reads.ofChars (h : Reads cs vs) :
    ∃ p, Program.ofChars cs = .ok p ∧ Form.values p.forms = vs := by
  obtain ⟨t, fs, hrun, -, hgroups, hlevel, hvs⟩ := h init rfl
  refine ⟨⟨t.settle.level.reverse, t.pos⟩, ?_, ?_⟩
  · exact Program.ofChars_eq_ok.mpr ⟨t, hrun, hgroups, rfl⟩
  · rw [hlevel]
    simpa [init] using hvs

end Scan

namespace Value

/-! ### Printable values -/

lemma reads_renderAll {vs : List Value} (h : ∀ v ∈ vs, Scan.Reads v.render.toList [v]) :
    Scan.Reads (renderAll vs).toList vs := by
  induction vs with
  | nil => exact .nil
  | cons v vs ih =>
    cases vs with
    | nil => exact h v List.mem_cons_self
    | cons w vs =>
      rw [toList_renderAll_cons]
      exact (h v List.mem_cons_self).space (ih fun u hu => h u (List.mem_cons_of_mem _ hu))

lemma Printable.reads_render {v : Value} (h : v.Printable) : Scan.Reads v.render.toList [v] := by
  induction h with
  | number n =>
    rw [render, String.toList_ofList]
    refine .word (isWord_decimal _) fun start => ?_
    rw [Form.word, if_pos (isNumeral_decimal _), Form.value, ofNumeral, Option.bind_some,
      String.toList_ofList, Text.readInt64?_decimal]
  | @symbol name hword hnumeral =>
    refine .word hword fun start => ?_
    rw [render, Form.word, hnumeral, if_neg Bool.false_ne_true, Form.value, String.ofList_toList]
  | sexpr _ ih =>
    rw [render, toList_enclose]
    exact .enclose .round (reads_renderAll ih)
  | qexpr _ ih =>
    rw [render, toList_enclose]
    exact .enclose .curly (reads_renderAll ih)

lemma fits_renderAll {limit depth : Nat} {vs : List Value}
    (h : ∀ v ∈ vs, Nesting.Fits limit depth v.render.toList) :
    Nesting.Fits limit depth (renderAll vs).toList := by
  induction vs with
  | nil => exact .nil
  | cons v vs ih =>
    cases vs with
    | nil => exact h v List.mem_cons_self
    | cons w vs =>
      rw [toList_renderAll_cons]
      refine (h v List.mem_cons_self).append (.cons (by decide) rfl rfl ?_)
      exact ih fun u hu => h u (List.mem_cons_of_mem _ hu)

/-- The brackets of a list take one level, and its cells what is left of the limit. -/
lemma fits_enclose (b : Bracket) {limit depth : Nat} {cells : List Value}
    (hdepth : depth + (nestingAll cells + 1) ≤ limit)
    (h : ∀ v ∈ cells, ∀ {depth}, depth + v.nesting ≤ limit →
      Nesting.Fits limit depth v.render.toList) :
    Nesting.Fits limit depth (b.enclose (renderAll cells)).toList := by
  rw [toList_enclose]
  refine .enclose b (by omega) (fits_renderAll fun v hv => h v hv ?_)
  have hle := nesting_le_nestingAll hv
  omega

lemma Printable.fits_render {v : Value} (h : v.Printable) {limit depth : Nat}
    (hdepth : depth + v.nesting ≤ limit) : Nesting.Fits limit depth v.render.toList := by
  induction h generalizing depth with
  | number n =>
    rw [render, String.toList_ofList]
    exact .word (isWord_decimal _).2
  | symbol hword _ => exact .word hword.2
  | sexpr _ ih => exact fits_enclose .round hdepth ih
  | qexpr _ ih => exact fits_enclose .curly hdepth ih

/-- The text of a printable value reads as the program that holds the value alone. -/
lemma Printable.parse_render {v : Value} (h : v.Printable) {limit : Nat}
    (hlimit : v.nesting ≤ limit) :
    ∃ t, Tree.parse v.render limit = .ok t ∧ ofTree t = .sexpr [v] := by
  obtain ⟨p, hp, hforms⟩ := h.reads_render.ofChars
  have hfits : Nesting.Fits limit 0 v.render.toList := h.fits_render (by omega)
  refine ⟨p.toTree, Tree.parse_eq_ok.mpr ⟨p, ?_, rfl⟩, ?_⟩
  · exact Program.parse_eq_ok.mpr ⟨hfits.tooDeep?_eq_none, hp⟩
  · rw [ofTree_program, hforms]

/-- What is read of a source is printable, unless an error stands in it. -/
lemma printable_of_parse {source : String} {limit : Nat} {t : Tree}
    (h : Tree.parse source limit = .ok t) (hfree : (ofTree t).ErrorFree) :
    (ofTree t).Printable := by
  obtain ⟨p, hp, rfl⟩ := Tree.parse_eq_ok.mp h
  have hforms := Program.wellFormed_of_ofChars (Program.parse_eq_ok.mp hp).2
  rw [ofTree_program] at hfree ⊢
  refine .sexpr fun v hv => ?_
  obtain ⟨f, hf, rfl⟩ := Form.mem_values.mp hv
  exact (hforms f hf).printable ((all_sexpr.mp hfree).2 _ hv)

end Value

/-- **Printing and reading are inverse on data.** The text of a printable value is parsed under
every limit that its brackets keep to, and reads as the program of that value alone. Whatever is
read of a source is printable if no error stands in it, and so reads back as well. -/
theorem printing_inverts_reading :
    (∀ (v : Value) (limit : Nat), v.Printable → v.nesting ≤ limit →
      ∃ t, Tree.parse v.render limit = .ok t ∧ .ofTree t = Value.sexpr [v]) ∧
    ∀ (source : String) (limit : Nat) (t : Tree), Tree.parse source limit = .ok t →
      (Value.ofTree t).ErrorFree →
      (Value.ofTree t).Printable ∧
        ∀ limit, (Value.ofTree t).nesting ≤ limit →
          ∃ u, Tree.parse (Value.ofTree t).render limit = .ok u ∧
            .ofTree u = Value.sexpr [.ofTree t] := by
  refine ⟨fun v limit hv hlimit => hv.parse_render hlimit, fun source limit t ht hfree => ?_⟩
  have hprintable := Value.printable_of_parse ht hfree
  exact ⟨hprintable, fun limit hlimit => hprintable.parse_render hlimit⟩

/-- Numbers and symbols that are easily mistaken for each other, and a source with an empty list
and a comment. -/
theorem printing_inverts_reading_minus :
    (∃ t, Tree.parse "\x7b-9223372036854775808 - 1a ()\x7d" 2 = .ok t ∧ .ofTree t =
      Value.sexpr [.qexpr [.number (-9223372036854775808), .symbol "-", .symbol "1a",
        .sexpr []]]) ∧
    ∃ t, Tree.parse "-1 () ; -" 1 = .ok t ∧ (Value.ofTree t).ErrorFree ∧
      (Value.ofTree t).Printable ∧
        ∀ limit, (Value.ofTree t).nesting ≤ limit →
          ∃ u, Tree.parse (Value.ofTree t).render limit = .ok u ∧
            .ofTree u = Value.sexpr [.ofTree t] := by
  refine ⟨?_, ?_⟩
  · have hv : (Value.qexpr [.number (-9223372036854775808), .symbol "-", .symbol "1a",
        .sexpr []]).Printable := by
      refine .qexpr fun c hc => ?_
      simp only [List.mem_cons, List.not_mem_nil, or_false] at hc
      rcases hc with rfl | rfl | rfl | rfl
      · exact .number _
      · exact .symbol ⟨by simp, by simp [isSymbolChar]⟩ (by simp [isNumeral])
      · exact .symbol ⟨by simp, by simp [isSymbolChar]⟩ (by simp [isNumeral])
      · exact .sexpr (by simp)
    have hrender : (Value.qexpr [.number (-9223372036854775808), .symbol "-", .symbol "1a",
        .sexpr []]).render = "\x7b-9223372036854775808 - 1a ()\x7d" := by decide +kernel
    rw [← hrender]
    exact printing_inverts_reading.1 _ 2 hv (by decide)
  · obtain ⟨t, ht, hvalue⟩ : ∃ t, Tree.parse "-1 () ; -" 1 = .ok t ∧
        Value.ofTree t = .sexpr [.number (-1), .sexpr []] := ⟨_, rfl, by decide +kernel⟩
    have hfree : (Value.ofTree t).ErrorFree := by
      simp [hvalue, Value.ErrorFree, Value.isError, Value.kind]
    exact ⟨t, ht, hfree, printing_inverts_reading.2 _ 1 t ht hfree⟩

end BraceLisp
