import BraceLisp.Proofs.Lexemes

/-!
Gaps that change, and tokens that stay.

A text is split into gaps and tokens in one way only (`IsGap.unique`, `Token.Whole.unique`), so what
has been read of it leaves the rest of its tokens for what follows (`Splits.of_lexes`). Tokens look
at what follows them no further than to see that a word does not go on, and not at all at where they
stand. So where a gap stands another one may, as long as words that a gap keeps apart stay apart
(`Splits.exchange_gap`).
-/

namespace BraceLisp

open Grammar

/-- Blanks, and comments each of which ends with its line. This is a gap wherever it stands. -/
inductive ClosedGap : List Char → Prop where
  | nil : ClosedGap []
  | blank {c : Char} {g : List Char} (hc : isBlank c = true) (hg : ClosedGap g) :
      ClosedGap (c :: g)
  | comment {cs g : List Char} (hcs : ∀ c ∈ cs, (c != '\n') = true) (hg : ClosedGap g) :
      ClosedGap (';' :: (cs ++ '\n' :: g))

/-- In the text `before ++ (gap ++ after)` a token ends where `gap` begins, or the text begins
there, and `gap` is blanks and comments where `after` follows them. An empty `gap` is a boundary of
a token. -/
def Gapped (before gap after : List Char) : Prop :=
  ∃ ts stop, Lexes 0 (before ++ (gap ++ after)) ts stop (gap ++ after) ∧ IsGap after gap

namespace Text

variable {p : Char → Bool} {cs ds : List Char}

/-- Whether a run stops before a text is up to the first character of the text. -/
lemma Stops.congr (h : Stops p cs) (hhead : cs.head? = ds.head?) : Stops p ds := by
  rwa [Stops, ← hhead]

lemma Stops.append (hcs : Stops p cs) (hds : Stops p ds) : Stops p (cs ++ ds) := by
  cases cs with
  | nil => exact hds
  | cons c cs => exact hcs.congr rfl

lemma head?_append_congr {rest rest' : List Char} (h : rest.head? = rest'.head?) :
    (cs ++ rest).head? = (cs ++ rest').head? := by
  rw [List.head?_append, List.head?_append, h]

end Text

/-! ### Gaps that change -/

namespace IsGap

variable {r r' g g' : List Char}

/-- A gap looks at the first character after it only. -/
lemma congr (hg : IsGap r g) (hhead : r.head? = r'.head?) : IsGap r' g := by
  induction hg with
  | nil => exact .nil
  | blank hc _ ih => exact .blank hc ih
  | comment hcs hend _ ih => exact .comment hcs (hend.congr (Text.head?_append_congr hhead)) ih

lemma append (hg : IsGap (g' ++ r) g) (hg' : IsGap r g') : IsGap r (g ++ g') := by
  induction hg with
  | nil => exact hg'
  | blank hc _ ih => exact .blank hc ih
  | comment hcs hend _ ih =>
    rw [List.cons_append, List.append_assoc]
    exact .comment hcs (by rwa [List.append_assoc]) ih

/-- No word goes on over a gap. -/
lemma stops_isSymbolChar (hg : IsGap r g) (hne : g ≠ []) (rest : List Char) :
    Text.Stops isSymbolChar (g ++ rest) := by
  cases hg with
  | nil => exact absurd rfl hne
  | @blank c _ hc _ =>
    refine Text.stops_cons.mpr (Bool.eq_false_iff.mpr fun hsymbol => ?_)
    exact Bool.noConfusion (hc.symm.trans (isBlank_of_isSymbolChar hsymbol))
  | comment => exact Text.stops_cons.mpr rfl

/-- A text has one gap at its front that is as long as can be. -/
lemma unique (hg : IsGap r g) (hg' : IsGap r' g') (hr : Text.Stops beginsGap r)
    (hr' : Text.Stops beginsGap r') (h : g ++ r = g' ++ r') : g = g' ∧ r = r' := by
  have hruns := Runs.gap 0 hg hr
  rw [h] at hruns
  have hrest : r = r' := by
    injection Option.some.inj (hruns.unique (Runs.gap 0 hg' hr'))
  subst hrest
  exact ⟨List.append_cancel_right h, rfl⟩

end IsGap

namespace ClosedGap

variable {g : List Char}

lemma isGap (hg : ClosedGap g) (rest : List Char) : IsGap rest g := by
  induction hg with
  | nil => exact .nil
  | blank hc _ ih => exact .blank hc ih
  | comment hcs _ ih => exact .comment hcs (Text.stops_cons.mpr rfl) (.blank rfl ih)

/-- What comes after the first line of a gap is a gap. -/
lemma exists_line (hg : ClosedGap g) : ∃ line rest, g = line ++ rest ∧
    (∀ c ∈ line, (c != '\n') = true) ∧ Text.Stops (· != '\n') rest ∧ ClosedGap rest := by
  induction hg with
  | nil => exact ⟨[], [], rfl, nofun, Text.stops_nil, .nil⟩
  | @blank c g hc hg ih =>
    cases hline : c != '\n' with
    | false => exact ⟨[], c :: g, rfl, nofun, Text.stops_cons.mpr hline, .blank hc hg⟩
    | true =>
      obtain ⟨line, rest, rfl, hchars, hstops, hrest⟩ := ih
      exact ⟨c :: line, rest, rfl, List.forall_mem_cons.mpr ⟨hline, hchars⟩, hstops, hrest⟩
  | @comment cs g hcs hg _ =>
    exact ⟨';' :: cs, '\n' :: g, rfl, List.forall_mem_cons.mpr ⟨rfl, hcs⟩,
      Text.stops_cons.mpr rfl, .blank rfl hg⟩

end ClosedGap

/-- A gap may follow any gap. The comment that a text ends in goes on over the first line. -/
lemma IsGap.append_closed {r g g' : List Char} (hg : IsGap r g) (hg' : ClosedGap g') :
    IsGap r (g ++ g') := by
  induction hg with
  | nil => exact hg'.isGap r
  | blank hc _ ih => exact .blank hc ih
  | @comment cs g hcs hend _ ih =>
    cases g with
    | nil =>
      obtain ⟨line, rest, rfl, hline, hstops, hrest⟩ := hg'.exists_line
      have hchars : ∀ c ∈ cs ++ line, (c != '\n') = true := List.forall_mem_append.mpr ⟨hcs, hline⟩
      rw [List.append_nil, List.cons_append, ← List.append_assoc]
      exact .comment hchars (hstops.append hend) (hrest.isGap r)
    | cons c g =>
      rw [List.cons_append, List.append_assoc]
      exact .comment hcs (hend.congr rfl) ih

/-! ### Tokens that stay -/

namespace Token

variable {t t' : Token} {cs cs' : List Char}

lemma Whole.chars_ne_nil (h : t.Whole cs) : t.chars ≠ [] := by
  cases t with
  | word => exact h.1.1
  | _ => exact List.cons_ne_nil _ _

lemma Whole.first (h : t.Whole cs) : Lexeme.first (t.chars ++ cs) = (t.kind, t.chars.length) := by
  cases t with
  | opening b => exact Lexeme.first_opening b cs
  | closing b => exact Lexeme.first_closing b cs
  | word w => exact Lexeme.first_word h.1 h.2

lemma eq_of_kind (hkind : t.kind = t'.kind) (hchars : t.chars = t'.chars) : t = t' := by
  cases t <;> cases t' <;> simp only [kind, chars] at hkind hchars <;> grind

/-- A text has one token at its front at most. -/
lemma Whole.unique (h : t.Whole cs) (h' : t'.Whole cs') (heq : t.chars ++ cs = t'.chars ++ cs') :
    t = t' ∧ cs = cs' := by
  have hfirst := h.first
  rw [heq, h'.first] at hfirst
  obtain ⟨hkind, hlength⟩ := Prod.mk.inj hfirst
  obtain ⟨hchars, hcs⟩ := List.append_inj heq hlength.symm
  exact ⟨eq_of_kind hkind.symm hchars, hcs⟩

end Token

namespace Lexes

variable {pos stop : Nat} {cs rest : List Char} {ts : List Token.Placed}

/-- Tokens may be followed by something else, if it does not lengthen the last one. -/
lemma exchange_rest (h : Lexes pos cs ts stop rest) : ∃ before, cs = before ++ rest ∧
    ∀ rest', (Text.Stops isSymbolChar rest → Text.Stops isSymbolChar rest') →
      Lexes pos (before ++ rest') ts stop rest' := by
  induction h with
  | nil => exact ⟨[], rfl, fun _ _ => .nil⟩
  | @token pos _ g cs rest t ts hgap hwhole _ ih =>
    obtain ⟨before, rfl, hexchange⟩ := ih
    refine ⟨g ++ (t.chars ++ before), by simp only [List.append_assoc], fun rest' hrest' => ?_⟩
    simp only [List.append_assoc]
    refine .token (hgap.congr ?_) ?_ (hexchange rest' hrest')
    · obtain ⟨c, w, hw⟩ := List.exists_cons_of_ne_nil hwhole.chars_ne_nil
      rw [hw]
      rfl
    · cases t with
      | word w =>
        refine ⟨hwhole.1, ?_⟩
        cases before with
        | nil => exact hrest' hwhole.2
        | cons c before => exact hwhole.2.congr rfl
      | _ => trivial

/-- Where a text stands has no influence on its tokens. -/
lemma shift (h : Lexes pos cs ts stop rest) (pos' : Nat) : ∃ us stop', Lexes pos' cs us stop' rest ∧
    us.map Token.Placed.token = ts.map Token.Placed.token := by
  induction h generalizing pos' with
  | nil => exact ⟨[], pos', .nil, rfl⟩
  | @token _ _ g _ _ t _ hgap hwhole _ ih =>
    obtain ⟨us, stop', hus, htokens⟩ := ih (pos' + Text.utf8Length g + Text.utf8Length t.chars)
    refine ⟨⟨pos' + Text.utf8Length g, t⟩ :: us, stop', .token hgap hwhole hus, ?_⟩
    rw [List.map_cons, List.map_cons, htokens]

end Lexes

namespace Splits

variable {pos stop : Nat} {cs rest g : List Char} {t : Token} {ts us : List Token.Placed}

lemma shift (h : Splits pos cs ts) (pos' : Nat) :
    ∃ us, Splits pos' cs us ∧ us.map Token.Placed.token = ts.map Token.Placed.token := by
  obtain ⟨stop, last, hlexes, hlast⟩ := h
  obtain ⟨us, stop', hus, htokens⟩ := hlexes.shift pos'
  exact ⟨us, ⟨stop', last, hus, hlast⟩, htokens⟩

/-- The first token of a text is the one that stands there. -/
lemma of_token (hgap : IsGap (t.chars ++ cs) g) (hwhole : t.Whole cs)
    (h : Splits pos (g ++ (t.chars ++ cs)) us) :
    ∃ vs, us = ⟨pos + Text.utf8Length g, t⟩ :: vs ∧
      Splits (pos + Text.utf8Length g + Text.utf8Length t.chars) cs vs := by
  obtain ⟨stop, last, hlexes, hlast⟩ := h
  generalize htext : g ++ (t.chars ++ cs) = text at hlexes
  cases hlexes with
  | nil =>
    rw [← List.append_nil last] at htext
    obtain ⟨-, hnil⟩ := hgap.unique hlast hwhole.stops_gap Text.stops_nil htext
    exact absurd (List.append_eq_nil_iff.mp hnil).1 hwhole.chars_ne_nil
  | token hgap' hwhole' hrest =>
    obtain ⟨rfl, htoken⟩ := hgap.unique hgap' hwhole.stops_gap hwhole'.stops_gap htext
    obtain ⟨rfl, rfl⟩ := hwhole.unique hwhole' htoken
    exact ⟨_, rfl, stop, last, hrest, hlast⟩

/-- Tokens at the front of a text are the first of all its tokens. -/
lemma of_lexes (h : Lexes pos cs ts stop rest) (hus : Splits pos cs us) :
    ∃ vs, us = ts ++ vs ∧ Splits stop rest vs := by
  induction h generalizing us with
  | nil => exact ⟨us, rfl, hus⟩
  | token hgap hwhole _ ih =>
    obtain ⟨vs, rfl, hvs⟩ := of_token hgap hwhole hus
    obtain ⟨ws, rfl, hws⟩ := ih hvs
    exact ⟨ws, rfl, hws⟩

/-- The tokens after a gap are those of the text that the gap stands before. -/
lemma of_gap (hg : IsGap cs g) (h : Splits pos (g ++ cs) ts) :
    Splits (pos + Text.utf8Length g) cs ts := by
  obtain ⟨g', ds, rfl, hg', hds⟩ := exists_gap cs
  have hall : IsGap ds (g ++ g') := hg.append hg'
  obtain ⟨stop, last, hlexes, hlast⟩ := h
  generalize htext : g ++ (g' ++ ds) = text at hlexes
  rw [← List.append_assoc] at htext
  cases hlexes with
  | nil =>
    rw [← List.append_nil last] at htext
    obtain ⟨-, rfl⟩ := hall.unique hlast hds Text.stops_nil htext
    rw [List.append_nil]
    exact ⟨_, g', .nil, hg'⟩
  | @token _ _ _ ds _ t us hgap hwhole hrest =>
    obtain ⟨rfl, rfl⟩ := hall.unique hgap hds hwhole.stops_gap htext
    have hpos : pos + Text.utf8Length (g ++ g') =
        pos + Text.utf8Length g + Text.utf8Length g' := by
      rw [Text.utf8Length_append, Nat.add_assoc]
    rw [hpos] at hrest ⊢
    exact ⟨stop, last, .token hg' hwhole hrest, hlast⟩

/-- Where a gap stands, another one may stand, and no token changes. Where no gap was needed, the
other one may be empty. -/
lemma exchange_gap {before old new after : List Char} (hold : Gapped before old after)
    (hnew : IsGap after new) (hempty : new = [] → old = [])
    (h : Splits 0 (before ++ (old ++ after)) ts) : ∃ us, Splits 0 (before ++ (new ++ after)) us ∧
      us.map Token.Placed.token = ts.map Token.Placed.token := by
  obtain ⟨front, stop, hfront, hgap⟩ := hold
  obtain ⟨back, rfl, hback⟩ := of_lexes hfront h
  -- the tokens after the gap move, those before it do not
  obtain ⟨back', hback', htokens⟩ := (of_gap hgap hback).shift (stop + Text.utf8Length new)
  have hlengthen {r g : List Char} (heq : g ++ r = after) (hg : IsGap r g) : IsGap r (new ++ g) :=
    IsGap.append (by rwa [heq]) hg
  obtain ⟨stop', last, hlexes, hlast⟩ := hback'.gap_append hlengthen
  have hstops : Text.Stops isSymbolChar (old ++ after) →
      Text.Stops isSymbolChar (new ++ after) := by
    intro hstops
    by_cases hne : new = []
    · rwa [hne, ← hempty hne]
    · exact hnew.stops_isSymbolChar hne after
  obtain ⟨before', heq, hexchange⟩ := hfront.exchange_rest
  obtain rfl := List.append_cancel_right heq
  refine ⟨front ++ back', ⟨stop', last, (hexchange _ hstops).trans hlexes, hlast⟩, ?_⟩
  rw [List.map_append, List.map_append, htokens]

end Splits

end BraceLisp
