import BraceLisp.Proofs.Scanning

/-!
The language of the grammar, said without a parser.

A source is a sequence of tokens with gaps between them (`Splits`), and the brackets among the
tokens group them into forms (`Groups`).
-/

namespace BraceLisp

open Grammar

/-- A bracket, or a run of symbol characters. -/
inductive Token where
  | opening (b : Bracket)
  | closing (b : Bracket)
  | word (chars : List Char)

/-- A token and the offset at which it begins. -/
structure Token.Placed where
  start : Nat
  token : Token

/-- The text is empty, or its first character is not in the class. -/
def Text.Stops (p : Char → Bool) (cs : List Char) : Prop := ∀ c ∈ cs.head?, p c = false

namespace Token

def chars : Token → List Char
  | opening b => [b.opening]
  | closing b => [b.closing]
  | word cs => cs

@[simp] lemma utf8Length_opening (b : Bracket) : Text.utf8Length (opening b).chars = 1 := by
  simp [chars]

@[simp] lemma utf8Length_closing (b : Bracket) : Text.utf8Length (closing b).chars = 1 := by
  simp [chars]

/-- A word is a longest run of symbol characters: where `rest` follows it, it does not go on. -/
def Whole (rest : List Char) : Token → Prop
  | word cs => IsWord cs ∧ Text.Stops isSymbolChar rest
  | _ => True

end Token

/-- Blanks and comments, where `rest` follows them. A comment goes on to the end of its line. -/
inductive IsGap (rest : List Char) : List Char → Prop where
  | nil : IsGap rest []
  | blank {c : Char} {g : List Char} (hc : isBlank c = true) (hg : IsGap rest g) :
      IsGap rest (c :: g)
  | comment {cs g : List Char} (hcs : ∀ c ∈ cs, (c != '\n') = true)
      (hend : Text.Stops (· != '\n') (g ++ rest)) (hg : IsGap rest g) :
      IsGap rest (';' :: (cs ++ g))

/-- The text `cs`, which stands at the offset `pos`, begins with the tokens `ts`, each with a gap
before it. After the last of them `rest` is left, at the offset `stop`. -/
inductive Lexes : Nat → List Char → List Token.Placed → Nat → List Char → Prop where
  | nil {pos : Nat} {cs : List Char} : Lexes pos cs [] pos cs
  | token {pos stop : Nat} {g cs rest : List Char} {t : Token} {ts : List Token.Placed}
      (hgap : IsGap (t.chars ++ cs) g) (hwhole : t.Whole cs)
      (hrest : Lexes (pos + Text.utf8Length g + Text.utf8Length t.chars) cs ts stop rest) :
      Lexes pos (g ++ (t.chars ++ cs)) (⟨pos + Text.utf8Length g, t⟩ :: ts) stop rest

/-- The text `cs`, which stands at the offset `pos`, is made of gaps and the tokens `ts`. -/
def Splits (pos : Nat) (cs : List Char) (ts : List Token.Placed) : Prop :=
  ∃ stop g, Lexes pos cs ts stop g ∧ IsGap [] g

/-- The brackets among the tokens are balanced and match in kind, and the tokens make up the
forms. -/
inductive Groups : List Token.Placed → List Form → Prop where
  | nil : Groups [] []
  | word {start : Nat} {cs : List Char} {ts : List Token.Placed} {fs : List Form}
      (hrest : Groups ts fs) : Groups (⟨start, .word cs⟩ :: ts) (.word start cs :: fs)
  | group {b : Bracket} {start stop : Nat} {inner ts : List Token.Placed} {ms fs : List Form}
      (hinner : Groups inner ms) (hrest : Groups ts fs) :
      Groups (⟨start, .opening b⟩ :: (inner ++ ⟨stop, .closing b⟩ :: ts))
        (.group b ⟨start, stop + 1⟩ ms :: fs)

/-! ### Gaps and tokens -/

namespace Text

variable {p : Char → Bool} {c : Char} {cs : List Char}

@[simp] lemma stops_nil : Stops p [] := nofun

@[simp] lemma stops_cons : Stops p (c :: cs) ↔ p c = false := by simp [Stops]

lemma utf8Length_pos (hne : cs ≠ []) : 0 < utf8Length cs := by
  obtain ⟨c, cs, rfl⟩ := List.exists_cons_of_ne_nil hne
  have hpos := c.utf8Size_pos
  rw [utf8Length_cons]
  omega

lemma Stops.mono {q : Char → Bool} (h : Stops p cs) (hpq : ∀ c, q c = true → p c = true) :
    Stops q cs := by
  intro c hc
  rw [Bool.eq_false_iff]
  intro hq
  exact Bool.noConfusion ((hpq c hq).symm.trans (h c hc))

lemma exists_of_not_stops (h : ¬ Stops p cs) : ∃ c rest, cs = c :: rest ∧ p c = true := by
  cases cs with
  | nil => exact absurd stops_nil h
  | cons c cs => exact ⟨c, cs, rfl, by simpa using h⟩

/-- Every text is a run of characters of a class and what follows the run. -/
lemma exists_run (p : Char → Bool) (cs : List Char) :
    ∃ run rest, cs = run ++ rest ∧ (∀ c ∈ run, p c = true) ∧ Stops p rest := by
  induction cs with
  | nil => exact ⟨[], [], rfl, nofun, stops_nil⟩
  | cons c cs ih =>
    cases hc : p c with
    | false => exact ⟨[], c :: cs, rfl, nofun, stops_cons.mpr hc⟩
    | true =>
      obtain ⟨run, rest, rfl, hrun, hrest⟩ := ih
      exact ⟨c :: run, rest, rfl, List.forall_mem_cons.mpr ⟨hc, hrun⟩, hrest⟩

end Text

/-- What passes over blanks and over comments passes over gaps. -/
lemma IsGap.passed_over {α : Type} {F : Nat → List Char → α} {rest g : List Char}
    (hblank : ∀ pos c cs, isBlank c = true → F pos (c :: cs) = F (pos + c.utf8Size) cs)
    (hcomment : ∀ pos body cs, (∀ c ∈ body, (c != '\n') = true) → Text.Stops (· != '\n') cs →
      F pos (';' :: (body ++ cs)) = F (pos + Text.utf8Length (';' :: body)) cs)
    (hg : IsGap rest g) (pos : Nat) :
    F pos (g ++ rest) = F (pos + Text.utf8Length g) rest := by
  induction hg generalizing pos with
  | nil => rfl
  | blank hc _ ih =>
    rw [List.cons_append, hblank _ _ _ hc, ih, Text.utf8Length_cons, Nat.add_assoc]
  | comment hbody hend _ ih =>
    rw [List.cons_append, List.append_assoc, hcomment _ _ _ hbody hend, ih, ← List.cons_append,
      Text.utf8Length_append, Nat.add_assoc]

/-- No token begins with a line feed. -/
lemma Token.Whole.not_stops {t : Token} {rest : List Char} (h : t.Whole rest) :
    ¬ Text.Stops (· != '\n') (t.chars ++ rest) := by
  intro hstops
  cases t with
  | opening b => cases b <;> simp [chars, Bracket.opening] at hstops
  | closing b => cases b <;> simp [chars, Bracket.closing] at hstops
  | word cs =>
    obtain ⟨⟨hne, hcs⟩, -⟩ := h
    cases cs with
    | nil => exact hne rfl
    | cons c cs =>
      have hc : c = '\n' := by simpa [chars] using hstops
      exact ne_of_isSymbolChar (hcs c List.mem_cons_self) rfl hc

namespace Lexes

variable {pos stop : Nat} {cs rest : List Char} {ts us : List Token.Placed}

lemma trans {mid : Nat} {ds : List Char} (h : Lexes pos cs ts mid ds)
    (h' : Lexes mid ds us stop rest) : Lexes pos cs (ts ++ us) stop rest := by
  induction h with
  | nil => exact h'
  | token hgap hwhole _ ih => exact .token hgap hwhole (ih h')

/-- Where some of the tokens end, the others begin. -/
lemma split (h : Lexes pos cs (ts ++ us) stop rest) :
    ∃ mid ds, Lexes pos cs ts mid ds ∧ Lexes mid ds us stop rest := by
  induction ts generalizing pos cs with
  | nil => exact ⟨pos, cs, .nil, h⟩
  | cons t ts ih =>
    cases h with
    | token hgap hwhole hrest =>
      obtain ⟨mid, ds, hts, hus⟩ := ih hrest
      exact ⟨mid, ds, .token hgap hwhole hts, hus⟩

/-- A gap that gets longer at its front moves no token. -/
lemma gap_cons {p : List Char}
    (hp : ∀ {r g : List Char}, g ++ r = cs → IsGap r g → IsGap r (p ++ g))
    (h : Lexes (pos + Text.utf8Length p) cs ts stop rest) (hts : ts ≠ []) :
    Lexes pos (p ++ cs) ts stop rest := by
  cases h with
  | nil => exact absurd rfl hts
  | @token _ _ g ds _ t us hgap hwhole hrest =>
    have hlength : pos + Text.utf8Length p + Text.utf8Length g =
        pos + Text.utf8Length (p ++ g) := by simp [Nat.add_assoc]
    rw [hlength] at hrest ⊢
    rw [← List.append_assoc]
    exact .token (hp rfl hgap) hwhole hrest

end Lexes

namespace Splits

variable {pos : Nat} {cs : List Char} {ts : List Token.Placed}

lemma nil : Splits pos [] [] := ⟨pos, [], .nil, .nil⟩

lemma token {t : Token} (hwhole : t.Whole cs)
    (h : Splits (pos + Text.utf8Length t.chars) cs ts) :
    Splits pos (t.chars ++ cs) (⟨pos, t⟩ :: ts) := by
  obtain ⟨stop, g, hlexes, hg⟩ := h
  exact ⟨stop, g, .token (g := []) .nil hwhole hlexes, hg⟩

/-- What lengthens every gap before a text may stand before the text. -/
lemma gap_append {p : List Char}
    (hp : ∀ {r g : List Char}, g ++ r = cs → IsGap r g → IsGap r (p ++ g))
    (h : Splits (pos + Text.utf8Length p) cs ts) : Splits pos (p ++ cs) ts := by
  obtain ⟨stop, last, hlexes, hlast⟩ := h
  cases ts with
  | nil =>
    cases hlexes
    exact ⟨pos, p ++ cs, .nil, hp (List.append_nil _) hlast⟩
  | cons t ts => exact ⟨stop, last, hlexes.gap_cons hp (List.cons_ne_nil _ _), hlast⟩

lemma blank {c : Char} (hc : isBlank c = true) (h : Splits (pos + c.utf8Size) cs ts) :
    Splits pos (c :: cs) ts :=
  gap_append (p := [c]) (fun _ hg => .blank hc hg) (by simpa using h)

lemma comment {body : List Char} (hbody : ∀ c ∈ body, (c != '\n') = true)
    (hend : Text.Stops (· != '\n') cs)
    (h : Splits (pos + Text.utf8Length (';' :: body)) cs ts) :
    Splits pos (';' :: (body ++ cs)) ts :=
  gap_append (p := ';' :: body) (fun hcs hg => .comment hbody (by rw [hcs]; exact hend) hg) h

end Splits

end BraceLisp
