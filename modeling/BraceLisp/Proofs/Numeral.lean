import BraceLisp.Grammar
import BraceLisp.Text.Decimal
import Mathlib.Tactic.Lemma

/-!
Numerals and the integers they denote.

The numeral of an integer reads back as that integer (`readInt64?_decimal`), and the grammar takes
it for a number: it is a word that has the form of a numeral.
-/

namespace BraceLisp

namespace Text

lemma toNat_digitChar {d : Nat} (h : d < 10) : (digitChar d).toNat = '0'.toNat + d := by
  have hzero : '0'.toNat = 48 := rfl
  have hvalid : ('0'.toNat + d).isValidChar := Or.inl (by omega)
  rw [digitChar, Char.ofNat, dif_pos hvalid]
  rfl

lemma isDigit_digitChar {d : Nat} (h : d < 10) : (digitChar d).isDigit = true := by
  have htoNat := toNat_digitChar h
  have hzero : '0'.toNat = 48 := rfl
  simp only [Char.isDigit, Bool.and_eq_true, decide_eq_true_eq, UInt32.le_iff_toNat_le]
  change 48 ≤ (digitChar d).toNat ∧ (digitChar d).toNat ≤ 57
  omega

lemma digitValue_digitChar {before d : Nat} (h : d < 10) :
    digitValue before (digitChar d) = 10 * before + d := by
  rw [digitValue, toNat_digitChar h]
  omega

lemma digitsValue_digits (n : Nat) : digitsValue (digits n) = n := by
  unfold digitsValue
  induction n using digits.induct with
  | case1 n h =>
    rw [digits, if_pos h, List.foldl_cons, List.foldl_nil, digitValue_digitChar h]
    omega
  | case2 n h ih =>
    rw [digits, if_neg h, List.foldl_append, ih, List.foldl_cons, List.foldl_nil,
      digitValue_digitChar (Nat.mod_lt n (by decide))]
    omega

lemma digits_ne_nil (n : Nat) : digits n ≠ [] := by
  rw [digits]
  split <;> simp

lemma isDigit_of_mem_digits {n : Nat} {c : Char} (h : c ∈ digits n) : c.isDigit = true := by
  induction n using digits.induct with
  | case1 n hn =>
    rw [digits, if_pos hn, List.mem_singleton] at h
    rw [h]
    exact isDigit_digitChar hn
  | case2 n hn ih =>
    rw [digits, if_neg hn, List.mem_append, List.mem_singleton] at h
    rcases h with h | rfl
    · exact ih h
    · exact isDigit_digitChar (Nat.mod_lt n (by decide))

/-- The digits of a number are one digit or more and nothing else. -/
lemma digits_all (n : Nat) : (!(digits n).isEmpty && (digits n).all Char.isDigit) = true := by
  have hne : (digits n).isEmpty = false := by simpa using digits_ne_nil n
  have hall : (digits n).all Char.isDigit = true :=
    List.all_eq_true.mpr fun _ => isDigit_of_mem_digits
  rw [hne, hall]
  rfl

lemma natural?_digits (n : Nat) : natural? (digits n) = some n := by
  rw [natural?, if_pos (digits_all n), digitsValue_digits]

lemma int64?_toInt (n : Int64) : int64? n.toInt = some n := by
  have hlow := n.le_toInt
  have hhigh := n.toInt_lt
  rw [int64?, if_pos ⟨hlow, hhigh⟩, Int64.ofInt_toInt]

/-- Digits have no sign before them. -/
lemma readInt64?_of_isDigit {cs : List Char} (h : ∀ c ∈ cs, c.isDigit = true) :
    readInt64? cs = (natural? cs).bind fun n => int64? n := by
  unfold readInt64?
  split
  · exact absurd (h '-' List.mem_cons_self) (by decide)
  · exact absurd (h '+' List.mem_cons_self) (by decide)
  · rfl

/-- The numeral of an integer reads back as the integer. -/
theorem readInt64?_decimal (n : Int64) : readInt64? (decimal n.toInt) = some n := by
  rcases Int.lt_or_le n.toInt 0 with hneg | hpos
  · have habs : -((n.toInt.natAbs : Nat) : Int) = n.toInt := by omega
    rw [decimal, if_pos hneg, readInt64?, natural?_digits, Option.bind_some, habs, int64?_toInt]
  · have habs : ((n.toInt.natAbs : Nat) : Int) = n.toInt := by omega
    rw [decimal, if_neg (Int.not_lt.mpr hpos), readInt64?_of_isDigit fun _ => isDigit_of_mem_digits,
      natural?_digits, Option.bind_some, habs, int64?_toInt]

end Text

namespace Grammar

/-- A run of symbol characters, one at least. -/
def IsWord (cs : List Char) : Prop := cs ≠ [] ∧ ∀ c ∈ cs, isSymbolChar c = true

lemma IsWord.singleton {c : Char} (hc : isSymbolChar c = true) : IsWord [c] :=
  ⟨List.cons_ne_nil _ _, fun d hd => by rw [List.mem_singleton.mp hd]; exact hc⟩

lemma IsWord.snoc {cs : List Char} {c : Char} (h : IsWord cs) (hc : isSymbolChar c = true) :
    IsWord (cs ++ [c]) := by
  refine ⟨List.concat_ne_nil c cs, fun d hd => ?_⟩
  rcases List.mem_append.mp hd with hd | hd
  · exact h.2 d hd
  · exact (IsWord.singleton hc).2 d hd

lemma isSymbolChar_of_isDigit {c : Char} (h : c.isDigit = true) : isSymbolChar c = true := by
  simp [isSymbolChar, Char.isAlphanum, h]

/-- Without a sign before it, a numeral is one digit or more and nothing else. -/
lemma isNumeral_of_isDigit {cs : List Char} (h : ∀ c ∈ cs, c.isDigit = true) :
    isNumeral cs = (!cs.isEmpty && cs.all Char.isDigit) := by
  unfold isNumeral
  split
  · exact absurd (h '-' List.mem_cons_self) (by decide)
  · rfl

lemma isNumeral_decimal (i : Int) : isNumeral (Text.decimal i) = true := by
  rcases Int.lt_or_le i 0 with hneg | hpos
  · rw [Text.decimal, if_pos hneg]
    exact Text.digits_all _
  · rw [Text.decimal, if_neg (Int.not_lt.mpr hpos),
      isNumeral_of_isDigit fun _ => Text.isDigit_of_mem_digits]
    exact Text.digits_all _

/-- The sign of a numeral is a symbol character, as its digits are. -/
lemma isWord_decimal (i : Int) : IsWord (Text.decimal i) := by
  have hdigits : ∀ c ∈ Text.digits i.natAbs, isSymbolChar c = true :=
    fun _ hc => isSymbolChar_of_isDigit (Text.isDigit_of_mem_digits hc)
  rw [Text.decimal]
  split
  · refine ⟨List.cons_ne_nil _ _, fun c hc => ?_⟩
    rcases List.mem_cons.mp hc with rfl | hc
    · rfl
    · exact hdigits c hc
  · exact ⟨Text.digits_ne_nil _, hdigits⟩

end Grammar

end BraceLisp
