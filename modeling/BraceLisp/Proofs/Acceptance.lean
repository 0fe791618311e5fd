import BraceLisp.Proofs.Language
import BraceLisp.Proofs.PegTree

/-!
Which sources the grammar accepts.

The rule for programs reads a source to its end, if the source is made of tokens that are grouped,
and fails otherwise (`runs_program_iff`). The scan of the source comes to the same
(`runs_program_iff_ofChars`), and so do the trees (`accepts_iff`).
-/

namespace BraceLisp

open Grammar

namespace Grammar

/-- The grammar reads the source as a program, and `t` is the node of what it has read. -/
def Accepts (source : String) (t : Tree) : Prop :=
  ∃ r p, Runs (.rule .program) 0 source.toList (some r) ∧ r.pairs.head? = some p ∧
    p.toTree source.toList = t

/-- The grammar fails on the source. -/
def Rejects (source : String) : Prop := Runs (.rule .program) 0 source.toList none

end Grammar

variable {cs g rest : List Char} {stop : Nat} {ts : List Token.Placed} {fs : List Form}

lemma Runs.program (h : Runs .items 0 cs (some ⟨stop, g, Form.toPairs fs⟩)) (hg : IsGap [] g) :
    Runs (.rule .program) 0 cs (some ⟨stop + Text.utf8Length g, [],
      [Program.toPair ⟨fs, stop + Text.utf8Length g⟩]⟩) := by
  have hend : Runs (.rule .endOfInput) (stop + Text.utf8Length g) [] (some ⟨_, [], [_]⟩) :=
    .rule (r := .endOfInput) .stop
  have hbody := Runs.start.seq_map (h.inside (List.append_nil g).symm hg Text.stops_nil hend)
  exact .rule (r := .program) hbody

lemma Runs.program_fails {c : Char} {r : Reading} (h : Runs .items 0 cs (some r))
    (hr : r.rest = g ++ c :: rest) (hg : IsGap (c :: rest) g)
    (hrest : Text.Stops beginsGap (c :: rest)) : Runs (.rule .program) 0 cs none := by
  have hend : Runs (.rule .endOfInput) (r.pos + Text.utf8Length g) (c :: rest) none :=
    .rule_fail .stop_before
  have hbody := Runs.start.seq_map (h.inside hr hg hrest hend)
  exact .rule_fail hbody

/-- Tokens that are grouped make up a program. -/
lemma Splits.runs (h : Splits 0 cs ts) (hts : Groups ts fs) :
    Runs (.rule .program) 0 cs (some ⟨Text.utf8Length cs, [],
      [Program.toPair ⟨fs, Text.utf8Length cs⟩]⟩) := by
  obtain ⟨stop, g, hlexes, hg⟩ := h
  have hstop : Runs .items stop (g ++ []) (some ⟨stop, g ++ [], []⟩) :=
    Runs.items_stop hg Text.stops_nil (Runs.expression_fails Text.stops_nil)
  rw [List.append_nil] at hstop
  have hitems := hts.runs hlexes hstop
  rw [List.append_nil] at hitems
  have hsize : Text.utf8Length cs = stop + Text.utf8Length g := by
    rw [← hlexes.utf8Length, Nat.zero_add]
  rw [hsize]
  exact hitems.program hg

/-- The rule for programs reads tokens that are grouped, or fails. -/
lemma runs_program (cs : List Char) :
    (∃ ts fs, Splits 0 cs ts ∧ Groups ts fs) ∨ Runs (.rule .program) 0 cs none := by
  obtain ⟨ts, fs, stop, rest, hlexes, hgroups, hstop⟩ := exists_items 0 cs
  obtain ⟨g, ds, rfl, hg, hds⟩ := exists_gap rest
  cases ds with
  | nil => exact Or.inl ⟨ts, fs, ⟨stop, g, by rwa [List.append_nil] at hlexes, hg⟩, hgroups⟩
  | cons c ds => exact Or.inr ((hgroups.runs hlexes hstop).program_fails rfl hg hds)

/-- All that the rule for programs reads. -/
lemma runs_program_iff {r : Reading} :
    Runs (.rule .program) 0 cs (some r) ↔ ∃ ts fs, Splits 0 cs ts ∧ Groups ts fs ∧
      r = ⟨Text.utf8Length cs, [], [Program.toPair ⟨fs, Text.utf8Length cs⟩]⟩ := by
  constructor
  · intro h
    rcases runs_program cs with ⟨ts, fs, hts, hfs⟩ | hnone
    · exact ⟨ts, fs, hts, hfs, Option.some.inj (h.unique (hts.runs hfs))⟩
    · cases h.unique hnone
  · rintro ⟨ts, fs, hts, hfs, rfl⟩
    exact hts.runs hfs

lemma runs_program_none_iff :
    Runs (.rule .program) 0 cs none ↔ ¬ ∃ ts fs, Splits 0 cs ts ∧ Groups ts fs := by
  constructor
  · rintro h ⟨ts, fs, hts, hfs⟩
    cases h.unique (hts.runs hfs)
  · exact fun h => (runs_program cs).resolve_left h

/-- The scan of a text comes to the same as the rule for programs. -/
lemma runs_program_iff_ofChars {r : Reading} :
    Runs (.rule .program) 0 cs (some r) ↔
      ∃ p, Program.ofChars cs = .ok p ∧ r = ⟨p.size, [], [p.toPair]⟩ := by
  rw [runs_program_iff]
  constructor
  · rintro ⟨ts, fs, hts, hfs, rfl⟩
    exact ⟨⟨fs, _⟩, Program.ofChars_eq_ok_iff.mpr ⟨rfl, ts, hts, hfs⟩, rfl⟩
  · rintro ⟨⟨fs, size⟩, hp, rfl⟩
    obtain ⟨rfl, ts, hts, hfs⟩ := Program.ofChars_eq_ok_iff.mp hp
    exact ⟨ts, fs, hts, hfs, rfl⟩

namespace Grammar

variable {source : String} {t : Tree}

lemma accepts_iff_splits : Accepts source t ↔
    ∃ ts fs, Splits 0 source.toList ts ∧ Groups ts fs ∧
      t = Program.toTree ⟨fs, Text.utf8Length source.toList⟩ := by
  have htree {ts fs} (hts : Splits 0 source.toList ts) (hfs : Groups ts fs) :
      (Program.toPair ⟨fs, Text.utf8Length source.toList⟩).toTree source.toList =
        Program.toTree ⟨fs, Text.utf8Length source.toList⟩ := by
    obtain ⟨stop, g, hlexes, -⟩ := hts
    exact hfs.toTree_toPair (p := ⟨fs, Text.utf8Length source.toList⟩) (hlexes.standsIn [] rfl)
  constructor
  · rintro ⟨r, p, hr, hp, rfl⟩
    obtain ⟨ts, fs, hts, hfs, rfl⟩ := runs_program_iff.mp hr
    cases hp
    exact ⟨ts, fs, hts, hfs, htree hts hfs⟩
  · rintro ⟨ts, fs, hts, hfs, rfl⟩
    exact ⟨_, _, hts.runs hfs, rfl, htree hts hfs⟩

/-- The scan of a source gives the tree that the grammar does. -/
lemma accepts_iff : Accepts source t ↔
    ∃ p, Program.ofChars source.toList = .ok p ∧ p.toTree = t := by
  rw [accepts_iff_splits]
  constructor
  · rintro ⟨ts, fs, hts, hfs, rfl⟩
    exact ⟨⟨fs, _⟩, Program.ofChars_eq_ok_iff.mpr ⟨rfl, ts, hts, hfs⟩, rfl⟩
  · rintro ⟨⟨fs, size⟩, hp, rfl⟩
    obtain ⟨rfl, ts, hts, hfs⟩ := Program.ofChars_eq_ok_iff.mp hp
    exact ⟨ts, fs, hts, hfs, rfl⟩

end Grammar

lemma Program.map_ofSource_eq_ok {α : Type} {source : String} {f : Program → α} {a : α} :
    (Program.ofSource source).map f = .ok a ↔
      ∃ p, Program.ofChars source.toList = .ok p ∧ f p = a := by
  unfold Program.ofSource
  cases Program.ofChars source.toList with
  | error s => exact ⟨nofun, fun ⟨_, h, _⟩ => nomatch h⟩
  | ok p =>
    constructor
    · intro h
      exact ⟨p, rfl, Except.ok.inj h⟩
    · rintro ⟨q, hq, rfl⟩
      cases hq
      rfl

lemma Pair.allMatchesAt_program (p : Program) : allMatchesAt 0 [p.toPair] = p.allMatches := by
  rw [allMatchesAt, allMatchesAt, p.matchesAt_toPair, List.append_nil]

/-- **The parser accepts exactly its language.** The grammar accepts a source exactly if the source
is made of gaps and tokens, and the brackets among the tokens are balanced and match in kind; the
tree is the one that the tokens make up. It fails on every other source. The parser accepts what the
grammar does, with the same tree and the same matches of rules. -/
theorem parser_accepts_its_language (source : String) :
    (∀ t, Accepts source t ↔ ∃ ts fs, Splits 0 source.toList ts ∧ Groups ts fs ∧
      t = Program.toTree ⟨fs, Text.utf8Length source.toList⟩) ∧
    (Rejects source ↔ ¬ ∃ ts fs, Splits 0 source.toList ts ∧ Groups ts fs) ∧
    (∀ t, (Program.ofSource source).map Program.toTree = .ok t ↔ Accepts source t) ∧
    ∀ ms, Rule.program.matchAtStart source = .ok ms ↔
      ∃ r, Runs (.rule .program) 0 source.toList (some r) ∧ Pair.allMatchesAt 0 r.pairs = ms := by
  refine ⟨fun t => accepts_iff_splits, runs_program_none_iff, fun t => ?_, fun ms => ?_⟩
  · rw [Program.map_ofSource_eq_ok, accepts_iff]
  · have hmatch : Rule.program.matchAtStart source =
        (Program.ofSource source).map Program.allMatches := rfl
    simp only [hmatch, Program.map_ofSource_eq_ok, runs_program_iff_ofChars]
    constructor
    · rintro ⟨p, hp, rfl⟩
      exact ⟨_, ⟨p, hp, rfl⟩, Pair.allMatchesAt_program p⟩
    · rintro ⟨r, ⟨p, hp, rfl⟩, rfl⟩
      exact ⟨p, hp, (Pair.allMatchesAt_program p).symm⟩

end BraceLisp
