import BraceLisp.Proofs.Scanning

/-!
How deep a text nests.

The search for a bracket that nests too deep passes over a text that keeps to the limit and closes
what it opens (`Nesting.Fits`). Such a text is composed of words, of spaces and of such texts in
brackets.
-/

namespace BraceLisp

open Grammar

namespace Nesting

/-- With `depth` brackets open before it, the text opens none deeper than the limit, and closes
those that it opens. -/
def Fits (limit depth : Nat) (cs : List Char) : Prop :=
  ∀ pos ds, tooDeepFrom? limit pos depth false (cs ++ ds) =
    tooDeepFrom? limit (pos + Text.utf8Length cs) depth false ds

variable {limit depth : Nat} {cs ds : List Char}

lemma isOpening_of_isSymbolChar {c : Char} (h : isSymbolChar c = true) : isOpening c = false := by
  cases hopening : Bracket.ofOpening? c with
  | none => rw [isOpening, hopening]; rfl
  | some b =>
    exact absurd (Bracket.eq_opening_of_ofOpening? hopening)
      (ne_of_isSymbolChar h b.isSymbolChar_opening)

lemma isClosing_of_isSymbolChar {c : Char} (h : isSymbolChar c = true) : isClosing c = false := by
  cases hclosing : Bracket.ofClosing? c with
  | none => rw [isClosing, hclosing]; rfl
  | some b =>
    exact absurd (Bracket.eq_closing_of_ofClosing? hclosing)
      (ne_of_isSymbolChar h b.isSymbolChar_closing)

lemma tooDeepFrom?_opening (b : Bracket) (pos : Nat) :
    tooDeepFrom? limit pos depth false (b.opening :: cs) =
      if depth + 1 > limit then some (pos, depth + 1)
      else tooDeepFrom? limit (pos + 1) (depth + 1) false cs := by
  simp [tooDeepFrom?, isOpening, b.opening_ne_semicolon]

lemma tooDeepFrom?_closing (b : Bracket) (pos : Nat) :
    tooDeepFrom? limit pos depth false (b.closing :: cs) =
      tooDeepFrom? limit (pos + 1) (depth - 1) false cs := by
  simp [tooDeepFrom?, isOpening, isClosing, b.closing_ne_semicolon]

/-- A character that is neither a bracket nor a semicolon is passed over. -/
lemma tooDeepFrom?_other {c : Char} (hsemicolon : c ≠ ';') (hopening : isOpening c = false)
    (hclosing : isClosing c = false) (pos : Nat) :
    tooDeepFrom? limit pos depth false (c :: cs) =
      tooDeepFrom? limit (pos + c.utf8Size) depth false cs := by
  rw [tooDeepFrom?, if_neg Bool.false_ne_true, if_neg hsemicolon, hopening,
    if_neg Bool.false_ne_true, hclosing, if_neg Bool.false_ne_true]

lemma Fits.nil : Fits limit depth [] := fun _ _ => rfl

lemma Fits.append (h : Fits limit depth cs) (h' : Fits limit depth ds) :
    Fits limit depth (cs ++ ds) := by
  intro pos es
  rw [List.append_assoc, h, h', Text.utf8Length_append, Nat.add_assoc]

lemma Fits.cons {c : Char} (hsemicolon : c ≠ ';') (hopening : isOpening c = false)
    (hclosing : isClosing c = false) (h : Fits limit depth cs) : Fits limit depth (c :: cs) := by
  intro pos ds
  rw [List.cons_append, tooDeepFrom?_other hsemicolon hopening hclosing, h, Text.utf8Length_cons,
    Nat.add_assoc]

lemma Fits.word (h : ∀ c ∈ cs, isSymbolChar c = true) : Fits limit depth cs := by
  induction cs with
  | nil => exact .nil
  | cons c cs ih =>
    have hc := h c List.mem_cons_self
    exact .cons (ne_of_isSymbolChar hc rfl) (isOpening_of_isSymbolChar hc)
      (isClosing_of_isSymbolChar hc) (ih fun d hd => h d (List.mem_cons_of_mem _ hd))

lemma Fits.enclose (b : Bracket) (hlimit : depth < limit) (h : Fits limit (depth + 1) cs) :
    Fits limit depth (b.opening :: (cs ++ [b.closing])) := by
  intro pos ds
  have hlength : pos + Text.utf8Length (b.opening :: (cs ++ [b.closing])) =
      pos + 1 + Text.utf8Length cs + 1 := by
    simp
    omega
  rw [hlength, List.cons_append, tooDeepFrom?_opening, if_neg (by omega), List.append_assoc, h,
    List.singleton_append, tooDeepFrom?_closing, Nat.add_sub_cancel]

lemma Fits.tooDeep?_eq_none (h : Fits limit 0 cs) : tooDeep? limit cs = none := by
  have hcs := h 0 []
  rwa [List.append_nil] at hcs

end Nesting

end BraceLisp
