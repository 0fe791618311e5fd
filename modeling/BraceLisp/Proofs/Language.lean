import BraceLisp.Proofs.PegTokens
import BraceLisp.Proofs.Recognition

/-!
The language of the grammar.

The grammar reads tokens that are grouped, as their forms (`Groups.runs`). There are such tokens at
every place, none or more, after which it reads nothing (`exists_items`). Since it does no more than
one thing at a place, this is all that it does.
-/

namespace BraceLisp

open Grammar

namespace Peg

/-- Expressions with a gap before each of them. -/
def items : Peg := .star (.seq gap (.rule .expression))

/-- What stands between the ends of a group and of a program, with the end that comes after it. -/
def inside (f : Peg) : Peg := .seq gap (.seq (many (.rule .expression)) (.seq gap f))

end Peg

/-! ### Tokens and gaps -/

lemma Token.Whole.stops_gap {t : Token} {rest : List Char} (h : t.Whole rest) :
    Text.Stops beginsGap (t.chars ++ rest) := by
  cases t with
  | opening b => exact Text.stops_cons.mpr (by simp [beginsGap, b.opening_ne_semicolon])
  | closing b => exact Text.stops_cons.mpr (by simp [beginsGap, b.closing_ne_semicolon])
  | word cs =>
    obtain ⟨⟨hne, hcs⟩, -⟩ := h
    cases cs with
    | nil => exact absurd rfl hne
    | cons c cs =>
      have hc := hcs c List.mem_cons_self
      have hsemicolon : c ≠ ';' := ne_of_isSymbolChar hc rfl
      exact Text.stops_cons.mpr (by simp [beginsGap, isBlank_of_isSymbolChar hc, hsemicolon])

lemma exists_opening {cs : List Char} (h : ¬ Text.Stops Nesting.isOpening cs) :
    ∃ (b : Bracket) (rest : List Char), cs = b.opening :: rest := by
  obtain ⟨c, rest, rfl, hc⟩ := Text.exists_of_not_stops h
  obtain ⟨b, hb⟩ := Option.isSome_iff_exists.mp hc
  exact ⟨b, rest, by rw [Bracket.eq_opening_of_ofOpening? hb]⟩

namespace Lexes

variable {pos stop : Nat} {cs rest : List Char} {ts : List Token.Placed}

lemma utf8Length (h : Lexes pos cs ts stop rest) :
    pos + Text.utf8Length cs = stop + Text.utf8Length rest := by
  induction h with
  | nil => rfl
  | token _ _ _ ih =>
    rw [← ih]
    simp [Nat.add_assoc]

/-- The tokens of a group are its brackets with the tokens between them. -/
lemma group {b : Bracket} {mid : Nat} {g g' outside : List Char} {inner : List Token.Placed}
    (h : Lexes (pos + Text.utf8Length g + 1) cs inner mid (g' ++ b.closing :: outside))
    (hg : IsGap (b.opening :: cs) g) (hg' : IsGap (b.closing :: outside) g')
    (hrest : Lexes (mid + Text.utf8Length g' + 1) outside ts stop rest) :
    Lexes pos (g ++ b.opening :: cs) (⟨pos + Text.utf8Length g, .opening b⟩ ::
      (inner ++ ⟨mid + Text.utf8Length g', .closing b⟩ :: ts)) stop rest := by
  have hclose : Lexes mid (g' ++ ([b.closing] ++ outside))
      (⟨mid + Text.utf8Length g', .closing b⟩ :: ts) stop rest :=
    .token (t := .closing b) hg' trivial (by simpa using hrest)
  exact .token (t := .opening b) hg trivial (by simpa using h.trans hclose)

lemma length_le (h : Lexes pos cs ts stop rest) : rest.length ≤ cs.length := by
  induction h with
  | nil => exact Nat.le_refl _
  | token _ _ _ ih =>
    simp only [List.length_append]
    omega

end Lexes

/-! ### Groups and programs -/

namespace Runs

variable {pos : Nat} {cs rest g : List Char} {r : Reading} {o : Option Reading} {e f : Peg}

/-- Expressions with gaps before them, and the gap after them, are what stands between the ends of
a group and of a program. -/
lemma inside (h : Runs .items pos cs (some r)) (hr : r.rest = g ++ rest) (hg : IsGap rest g)
    (hrest : Text.Stops beginsGap rest) (hf : Runs f (r.pos + Text.utf8Length g) rest o) :
    Runs (.inside f) pos cs (o.map r.andThen) := by
  cases h with
  | star_stop he =>
    subst hr
    have hgap := gap pos hg hrest
    have hnone : Runs (.rule .expression) (pos + Text.utf8Length g) rest none := by
      cases he with
      | seq_first he => cases hgap.unique he
      | seq_second he hf => cases hgap.unique he; exact hf
    have hmany : Runs (.many (.rule .expression)) (pos + Text.utf8Length g) rest
        (some ⟨pos + Text.utf8Length g, rest, []⟩) := .choice_second (.seq_first hnone) .empty
    have hempty : Runs .gap (pos + Text.utf8Length g) rest
        (some ⟨pos + Text.utf8Length g, rest, []⟩) := gap _ .nil hrest
    have hall := hgap.seq_map (hmany.seq_map (hempty.seq_map hf))
    cases o with
    | none => exact hall
    | some s => exact hall
  | @star_step _ _ _ _ last he hs =>
    obtain ⟨g₀, ds, rfl, hg₀, hds⟩ := exists_gap cs
    have hgap := gap pos hg₀ hds
    cases he with
    | @seq _ _ _ _ r₀ r₁ he hexpression =>
      cases hgap.unique he
      have hmany := choice_first (f := .empty) (.seq hexpression hs)
      have hlast := gap last.pos hg hrest
      rw [← hr] at hlast
      have hall := hgap.seq_map (hmany.seq_map (hlast.seq_map hf))
      cases o with
      | none => exact hall
      | some s => exact hall

/-- A group is read if its closing bracket follows what stands in it, and not otherwise. -/
lemma group_map (b : Bracket) (h : Runs .items (pos + 1) cs (some r)) (hr : r.rest = g ++ rest)
    (hg : IsGap rest g) (hrest : Text.Stops beginsGap rest)
    (hclose : Runs (.rule (.closing b)) (r.pos + Text.utf8Length g) rest o) :
    Runs (.rule (.group b)) pos (b.opening :: cs)
      (o.map fun s => ⟨s.pos, s.rest,
        [⟨.group b, ⟨pos, s.pos⟩, ⟨.opening b, ⟨pos, pos + 1⟩, []⟩ :: (r.pairs ++ s.pairs)⟩]⟩) := by
  have hbody := (opening pos b cs).seq_map (h.inside hr hg hrest hclose)
  have hrule := rule_map (r := .group b) hbody
  cases o with
  | none => exact hrule
  | some s => exact hrule

/-- Where no expression follows the gap, there are no more of them. -/
lemma items_stop (hg : IsGap rest g) (hrest : Text.Stops beginsGap rest)
    (h : Runs (.rule .expression) (pos + Text.utf8Length g) rest none) :
    Runs .items pos (g ++ rest) (some ⟨pos, g ++ rest, []⟩) :=
  .star_stop (.seq_second (gap pos hg hrest) h)

lemma items_step {s : Reading} (hg : IsGap rest g) (hrest : Text.Stops beginsGap rest)
    (h : Runs (.rule .expression) (pos + Text.utf8Length g) rest (some r))
    (hs : Runs .items r.pos r.rest (some s)) :
    Runs .items pos (g ++ rest) (some ⟨s.pos, s.rest, r.pairs ++ s.pairs⟩) :=
  .star_step (.seq (gap pos hg hrest) h) hs

/-- A group is read if its closing bracket follows the gap after what stands in it. -/
lemma expression_group {b : Bracket} (h : Runs .items (pos + 1) cs (some r))
    (hr : r.rest = g ++ b.closing :: rest) (hg : IsGap (b.closing :: rest) g) {stop : Nat}
    (hstop : stop = r.pos + Text.utf8Length g) {fs : List Form} (hfs : r.pairs = Form.toPairs fs) :
    Runs (.rule .expression) pos (b.opening :: cs)
      (some ⟨stop + 1, rest, [(Form.group b ⟨pos, stop + 1⟩ fs).toPair]⟩) := by
  subst hstop
  have hclosing := closing (r.pos + Text.utf8Length g) b rest
  have hgroup := group_map b h hr hg (Token.Whole.stops_gap (t := .closing b) trivial) hclosing
  rw [hfs] at hgroup
  exact expression_opening hgroup

end Runs

/-- Tokens that are grouped are read as their forms. -/
lemma Groups.runs {ts : List Token.Placed} {fs : List Form} (h : Groups ts fs) {pos stop : Nat}
    {cs rest : List Char} {r : Reading} (hlexes : Lexes pos cs ts stop rest)
    (hr : Runs .items stop rest (some r)) :
    Runs .items pos cs (some ⟨r.pos, r.rest, Form.toPairs fs ++ r.pairs⟩) := by
  induction h generalizing pos cs stop rest r with
  | nil =>
    cases hlexes
    exact hr
  | word _ ih =>
    cases hlexes with
    | token hgap hwhole hrest =>
      exact Runs.items_step hgap hwhole.stops_gap (Runs.expression_word hwhole.1 hwhole.2)
        (ih hrest hr)
  | @group b _ _ inner ts ms fs _ _ ihinner ihrest =>
    cases hlexes with
    | token hgap hwhole hrest =>
      obtain ⟨mid, ds, hinner, hclose⟩ := hrest.split
      cases hclose with
      | token hgap' hwhole' hrest' =>
        rw [Token.utf8Length_opening] at hinner
        rw [Token.utf8Length_closing] at hrest'
        -- what stands in the group ends before the gap at the closing bracket
        have hitems := ihinner hinner
          (Runs.items_stop hgap' hwhole'.stops_gap (Runs.expression_closing b))
        have hgroup := Runs.expression_group hitems rfl hgap' rfl (List.append_nil _)
        exact Runs.items_step hgap hwhole.stops_gap hgroup (ihrest hrest' hr)

/-- At every place there are some forms, and no expression is read after them. -/
lemma exists_items (pos : Nat) (cs : List Char) :
    ∃ ts fs stop rest, Lexes pos cs ts stop rest ∧ Groups ts fs ∧
      Runs .items stop rest (some ⟨stop, rest, []⟩) := by
  induction hn : cs.length using Nat.strongRecOn generalizing pos cs with
  | ind n ih =>
    subst hn
    obtain ⟨g, ds, rfl, hg, hds⟩ := exists_gap cs
    have hnone (h : Runs (.rule .expression) (pos + Text.utf8Length g) ds none) :
        ∃ ts fs stop rest, Lexes pos (g ++ ds) ts stop rest ∧ Groups ts fs ∧
          Runs .items stop rest (some ⟨stop, rest, []⟩) :=
      ⟨[], [], pos, g ++ ds, .nil, .nil, Runs.items_stop hg hds h⟩
    obtain ⟨w, rest, rfl, hw, hrest⟩ := Text.exists_run isSymbolChar ds
    by_cases hne : w = []
    · -- no word stands here: an opening bracket does, or nothing that can be read
      subst hne
      by_cases hopening : Text.Stops Nesting.isOpening rest
      · exact hnone (Runs.expression_fails fun c hc =>
          Bool.or_eq_false_iff.mpr ⟨hrest c hc, hopening c hc⟩)
      · obtain ⟨b, inside, rfl⟩ := exists_opening hopening
        have hinside : inside.length < (g ++ b.opening :: inside).length := by simp; omega
        obtain ⟨inner, ms, mid, after, hinner, hms, hmid⟩ :=
          ih _ hinside (pos + Text.utf8Length g + 1) inside rfl
        have hafter := hinner.length_le
        obtain ⟨g', ds', rfl, hg', hds'⟩ := exists_gap after
        by_cases hclosing : Text.Stops (· == b.closing) ds'
        · have hgroup := Runs.group_map b (hms.runs hinner hmid) rfl hg' hds'
            (Runs.closing_fails hclosing)
          exact hnone (Runs.expression_opening hgroup)
        · obtain ⟨c, outside, rfl, hc⟩ := Text.exists_of_not_stops hclosing
          rw [beq_iff_eq] at hc
          subst hc
          have houtside : outside.length < (g ++ b.opening :: inside).length := by
            simp only [List.length_append, List.length_cons] at hafter ⊢
            omega
          obtain ⟨ts, fs, stop, rest, hlexes, hgroups, hstop⟩ :=
            ih _ houtside (mid + Text.utf8Length g' + 1) outside rfl
          exact ⟨_, .group b _ ms :: fs, stop, rest, hinner.group hg hg' hlexes,
            .group hms hgroups, hstop⟩
    · have hword : IsWord w := ⟨hne, hw⟩
      have hpos := List.length_pos_iff.mpr hne
      have hlt : rest.length < (g ++ (w ++ rest)).length := by
        simp only [List.length_append]
        omega
      obtain ⟨ts, fs, stop, rest', hlexes, hgroups, hstop⟩ :=
        ih _ hlt (pos + Text.utf8Length g + Text.utf8Length w) rest rfl
      exact ⟨_, .word _ w :: fs, stop, rest', .token (t := .word w) hg ⟨hword, hrest⟩ hlexes,
        .word hgroups, hstop⟩

end BraceLisp
