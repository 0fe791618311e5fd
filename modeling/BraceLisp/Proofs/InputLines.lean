import BraceLisp.CommandLine
import BraceLisp.Proofs.Tokens

/-!
The lines of the standard input.

Bytes are cut into lines before they are read as text. In UTF-8 the bytes of a line feed and of a
carriage return stand for nothing else (`Text.eq_of_mem_utf8EncodeChar`), so the lines of the bytes
are those of the text that the bytes are the form of (`CommandLine.decodeLines_toUTF8`).
-/

namespace BraceLisp

namespace Text

/-- The lines of a text: each without the line feed at its end, and without a carriage return before
that. What follows the last line feed is a line if it is not empty. -/
def inputLines : List Char → List (List Char)
  | [] => []
  | '\n' :: cs => [] :: inputLines cs
  | '\r' :: '\n' :: cs => [] :: inputLines cs
  | c :: cs =>
    match inputLines cs with
    | [] => [[c]]
    | l :: ls => (c :: l) :: ls

/-- The bytes of the UTF-8 form. -/
def bytes (cs : List Char) : List UInt8 := cs.flatMap String.utf8EncodeChar

/-- A line without the carriage return at its end. -/
def withoutReturn (cs : List Char) : List Char :=
  if cs.getLast? = some '\r' then cs.dropLast else cs

variable {c : Char} {cs l : List Char}

/-! ### Lines -/

/-- A character goes before the first line of what follows it, if no line ends at it. -/
lemma inputLines_cons {ls : List (List Char)} (hc : c ≠ '\n')
    (hreturn : c = '\r' → cs.head? ≠ some '\n') (h : inputLines cs = l :: ls) :
    inputLines (c :: cs) = (c :: l) :: ls := by
  unfold inputLines
  split
  · next heq => cases heq
  · next heq => exact absurd (List.cons.inj heq).1 hc
  · next heq =>
    obtain ⟨rfl, rfl⟩ := List.cons.inj heq
    exact absurd rfl (hreturn rfl)
  · next heq =>
    obtain ⟨rfl, rfl⟩ := List.cons.inj heq
    rw [h]

lemma withoutReturn_cons_cons (c d : Char) (cs : List Char) :
    withoutReturn (c :: d :: cs) = c :: withoutReturn (d :: cs) := by
  rw [withoutReturn, withoutReturn, List.getLast?_cons_cons]
  split <;> rfl

/-- What is before the first line feed is a line. -/
lemma inputLines_append_lineFeed (hl : ∀ c ∈ l, c ≠ '\n') (cs : List Char) :
    inputLines (l ++ '\n' :: cs) = withoutReturn l :: inputLines cs := by
  induction l with
  | nil => rfl
  | cons c l ih =>
    obtain ⟨hc, hl⟩ := List.forall_mem_cons.mp hl
    cases l with
    | nil =>
      by_cases hreturn : c = '\r'
      · subst hreturn
        rfl
      · rw [List.singleton_append, inputLines_cons hc (absurd · hreturn) rfl, withoutReturn,
          if_neg (by simpa using hreturn)]
    | cons d l =>
      have hd : d ≠ '\n' := hl d List.mem_cons_self
      rw [withoutReturn_cons_cons]
      exact inputLines_cons hc (fun _ => by simpa using hd) (ih hl)

/-- A text without a line feed is one line. -/
lemma inputLines_of_no_lineFeed (hl : ∀ c ∈ l, c ≠ '\n') (hne : l ≠ []) : inputLines l = [l] := by
  induction l with
  | nil => exact absurd rfl hne
  | cons c l ih =>
    obtain ⟨hc, hl⟩ := List.forall_mem_cons.mp hl
    cases l with
    | nil =>
      unfold inputLines
      split
      · next heq => cases heq
      · next heq => exact absurd (List.cons.inj heq).1 hc
      · next heq => cases heq
      · next heq => cases heq; rfl
    | cons d l =>
      have hd : d ≠ '\n' := hl d List.mem_cons_self
      exact inputLines_cons hc (fun _ => by simpa using hd) (ih hl (List.cons_ne_nil _ _))

example : inputLines "a\r\n\r\r\n\nb\r".toList = [['a'], ['\r'], [], ['b', '\r']] := rfl

/-! ### Bytes -/

@[simp] lemma bytes_nil : bytes [] = [] := rfl

lemma bytes_ne_nil (h : cs ≠ []) : bytes cs ≠ [] := by
  obtain ⟨c, cs, rfl⟩ := List.exists_cons_of_ne_nil h
  exact List.append_ne_nil_of_left_ne_nil String.utf8EncodeChar_ne_nil _

lemma bytes_append (cs ds : List Char) : bytes (cs ++ ds) = bytes cs ++ bytes ds :=
  List.flatMap_append

/-- A byte below 128 is a character of its own. -/
lemma toNat_of_mem_utf8EncodeChar {b : UInt8} (hb : b.toNat < 128)
    (h : b ∈ String.utf8EncodeChar c) : c.toNat = b.toNat := by
  -- the bytes of a character of more than one byte are all above
  have hhigh {n : Nat} (hn : 128 ≤ n % 2 ^ 8) : b ≠ UInt8.ofNat n := by
    rintro rfl
    rw [UInt8.toNat_ofNat'] at hb
    omega
  unfold String.utf8EncodeChar at h
  dsimp only at h
  split at h
  · rw [List.mem_singleton.mp h, UInt8.toNat_ofNat', Nat.mod_eq_of_lt (by omega)]
    rfl
  · exfalso
    split at h
    · simp only [List.mem_cons, List.not_mem_nil, or_false] at h
      rcases h with h | h <;> exact hhigh (by omega) h
    · split at h
      · simp only [List.mem_cons, List.not_mem_nil, or_false] at h
        rcases h with h | h | h <;> exact hhigh (by omega) h
      · simp only [List.mem_cons, List.not_mem_nil, or_false] at h
        rcases h with h | h | h | h <;> exact hhigh (by omega) h

lemma eq_of_mem_utf8EncodeChar {d : Char} (hd : d.toNat < 128)
    (h : UInt8.ofNat d.toNat ∈ String.utf8EncodeChar c) : c = d := by
  have hsize : (UInt8.ofNat d.toNat).toNat = d.toNat := by
    rw [UInt8.toNat_ofNat', Nat.mod_eq_of_lt (by omega)]
  have heq := toNat_of_mem_utf8EncodeChar (by omega) h
  exact Char.toNat_inj.mp (heq.trans hsize)

/-- The bytes of a text have no line feed if the text has none. -/
lemma bytes_ne_lineFeed (h : ∀ c ∈ cs, c ≠ '\n') : ∀ b ∈ bytes cs, b ≠ 10 := by
  rintro _ hb rfl
  obtain ⟨c, hc, hb⟩ := List.mem_flatMap.mp hb
  exact h c hc (eq_of_mem_utf8EncodeChar (d := '\n') (by decide) hb)

/-- The bytes of a text as text. -/
lemma fromUTF8?_bytes (cs : List Char) :
    String.fromUTF8? (bytes cs).toByteArray = some (String.ofList cs) := by
  have hbytes : (bytes cs).toByteArray = (String.ofList cs).toByteArray :=
    String.toByteArray_ofList.symm
  rw [hbytes, String.fromUTF8?, dif_pos (String.ofList cs).isValidUTF8]
  rfl

/-- A byte array is listed from an index on, after what has been listed. -/
lemma toList_loop (bs : ByteArray) (i : Nat) (sofar : List UInt8) :
    ByteArray.toList.loop bs i sofar = sofar.reverse ++ bs.data.toList.drop i := by
  fun_induction ByteArray.toList.loop bs i sofar with
  | case1 i sofar h ih =>
    have hi : i < bs.data.toList.length := by simpa using h
    rw [ih, List.drop_eq_getElem_cons hi]
    simp [ByteArray.get!, h]
  | case2 i sofar h =>
    have hi : bs.data.toList.length ≤ i := by simpa using h
    rw [List.drop_eq_nil_of_le hi, List.append_nil]

lemma toList_toUTF8 (s : String) : s.toUTF8.toList = bytes s.toList := by
  have hlist : s.toUTF8.toList = s.toUTF8.data.toList := toList_loop s.toUTF8 0 []
  have hbytes : s.toUTF8 = (bytes s.toList).toByteArray := String.utf8Encode_toList.symm
  rw [hlist, hbytes, List.toList_data_toByteArray]

end Text

namespace CommandLine

open Text

variable {b : UInt8} {bs sofar : List UInt8} {l : List Char}

/-! ### Lines of bytes -/

lemma splitLines_nil (h : sofar ≠ []) : splitLines sofar [] = [sofar.reverse] := by
  rw [splitLines, List.isEmpty_eq_false_iff.mpr h]
  rfl

lemma splitLines_cons (hb : b ≠ 10) : splitLines sofar (b :: bs) = splitLines (b :: sofar) bs := by
  rw [splitLines.eq_def sofar]
  exact if_neg hb

lemma splitLines_return (sofar bs : List UInt8) :
    splitLines (13 :: sofar) (10 :: bs) = sofar.reverse :: splitLines [] bs := by
  rw [splitLines.eq_def]
  exact if_pos rfl

lemma splitLines_of_ne_return (hb : b ≠ 13) :
    splitLines (b :: sofar) (10 :: bs) = (b :: sofar).reverse :: splitLines [] bs := by
  rw [splitLines.eq_def]
  dsimp only
  rw [if_pos rfl]
  split
  · next heq => exact absurd (List.cons.inj heq).1 hb
  · rfl

/-- A line goes on over bytes that are no line feed. -/
lemma splitLines_append (hbs : ∀ b ∈ bs, b ≠ 10) (sofar rest : List UInt8) :
    splitLines sofar (bs ++ rest) = splitLines (bs.reverse ++ sofar) rest := by
  induction bs generalizing sofar with
  | nil => rfl
  | cons b bs ih =>
    obtain ⟨hb, hbs⟩ := List.forall_mem_cons.mp hbs
    rw [List.cons_append, splitLines_cons hb, ih hbs, List.reverse_cons, List.append_assoc]
    rfl

/-- The byte of a carriage return is taken off a line as the character is. -/
lemma splitLines_lineFeed (l : List Char) (bs : List UInt8) :
    splitLines (bytes l).reverse (10 :: bs) = bytes (withoutReturn l) :: splitLines [] bs := by
  rcases List.eq_nil_or_concat l with rfl | ⟨l, c, rfl⟩
  · rfl
  · rw [List.concat_eq_append, bytes_append, List.reverse_append, withoutReturn,
      List.getLast?_concat, List.dropLast_concat]
    have hchar : bytes [c] = String.utf8EncodeChar c := List.append_nil _
    rw [hchar]
    by_cases hc : c = '\r'
    · subst hc
      have hreturn : (String.utf8EncodeChar '\r').reverse = [13] := rfl
      rw [if_pos rfl, hreturn, List.singleton_append, splitLines_return, List.reverse_reverse]
    · rw [if_neg (by simpa using hc), bytes_append, hchar, ← List.reverse_append]
      -- the last byte of the line is one of another character
      rcases List.eq_nil_or_concat (String.utf8EncodeChar c) with hnil | ⟨bs', b, hb⟩
      · exact absurd hnil String.utf8EncodeChar_ne_nil
      · have hreturn : b ≠ 13 := by
          rintro rfl
          refine hc (eq_of_mem_utf8EncodeChar (d := '\r') (by decide) ?_)
          rw [hb, List.concat_eq_append]
          exact List.mem_append_right _ (List.mem_singleton_self _)
        rw [hb, List.concat_eq_append, ← List.append_assoc, List.reverse_concat,
          splitLines_of_ne_return hreturn, ← List.reverse_concat, List.reverse_reverse]

lemma splitLines_bytes (cs : List Char) :
    splitLines [] (bytes cs) = (inputLines cs).map bytes := by
  induction hn : cs.length using Nat.strongRecOn generalizing cs with
  | ind n ih =>
    subst hn
    obtain ⟨l, rest, rfl, hl, hrest⟩ := exists_run (· != '\n') cs
    have hline : ∀ c ∈ l, c ≠ '\n' := fun c hc => by simpa using hl c hc
    rw [bytes_append, splitLines_append (bytes_ne_lineFeed hline), List.append_nil]
    cases rest with
    | nil =>
      rw [List.append_nil]
      by_cases hne : l = []
      · subst hne
        rfl
      · have hbytes : (bytes l).reverse ≠ [] := List.reverse_ne_nil_iff.mpr (bytes_ne_nil hne)
        rw [inputLines_of_no_lineFeed hline hne, bytes_nil, splitLines_nil hbytes,
          List.reverse_reverse]
        rfl
    | cons c rest =>
      have hc : c = '\n' := by simpa using hrest
      subst hc
      have hlt : rest.length < (l ++ '\n' :: rest).length := by simp; omega
      have hfeed : bytes ('\n' :: rest) = 10 :: bytes rest := rfl
      rw [hfeed, splitLines_lineFeed, ih _ hlt rest rfl, inputLines_append_lineFeed hline,
        List.map_cons]

lemma decodeLines_map_bytes (ls : List (List Char)) :
    decodeLines (ls.map bytes) = (ls.map String.ofList, false) := by
  induction ls with
  | nil => rfl
  | cons l ls ih => rw [List.map_cons, decodeLines, fromUTF8?_bytes, ih]; rfl

/-- The lines of the standard input are those of the text that is written to it. -/
lemma decodeLines_toUTF8 (text : String) :
    decodeLines (splitLines [] text.toUTF8.toList) =
      ((inputLines text.toList).map String.ofList, false) := by
  rw [toList_toUTF8, splitLines_bytes, decodeLines_map_bytes]

end CommandLine

end BraceLisp
