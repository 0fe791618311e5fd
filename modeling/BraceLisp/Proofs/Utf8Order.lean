import BraceLisp.Proofs.InputLines
import Mathlib.Data.String.Basic

/-!
The order of texts is that of their bytes.

Texts are compared character by character, by code point. The UTF-8 form keeps this order. Its bytes
are the digits of the code point in base 64 (`utf8EncodeChar_eq_digits64`), so that in forms of one
length the first digit that differs decides (`digits64_append_lt`). The first byte also says how
many follow, and it is greater if more do (`lead_lt_lead`).
-/

namespace BraceLisp.Text

variable {bs bs' : List UInt8} {m n k base : Nat}

/-! ### Digits -/

lemma ofNat_cons_lt (h : m < n) (hn : n < 256) : UInt8.ofNat m :: bs < UInt8.ofNat n :: bs' := by
  rw [List.cons_lt_cons_iff, UInt8.lt_iff_toNat_lt, UInt8.toNat_ofNat', UInt8.toNat_ofNat']
  omega

/-- The last `k` digits of a number as bytes, and before them one byte for what is left of it,
counted from `base`. -/
def digits64 (base : Nat) : Nat → Nat → List UInt8
  | 0, n => [UInt8.ofNat (n + base)]
  | k + 1, n => digits64 base k (n / 64) ++ [UInt8.ofNat (n % 64 + 128)]

lemma exists_digits64_eq_cons (base k n : Nat) :
    ∃ tail, digits64 base k n = UInt8.ofNat (n / 64 ^ k + base) :: tail := by
  induction k generalizing n with
  | zero => exact ⟨[], by simp [digits64]⟩
  | succ k ih =>
    obtain ⟨tail, htail⟩ := ih (n / 64)
    rw [Nat.div_div_eq_div_mul, ← Nat.pow_succ'] at htail
    exact ⟨_, by rw [digits64, htail, List.cons_append]⟩

/-- The last digit decides where those before it are the same. -/
lemma digits64_append_lt (h : m < n) (hn : n / 64 ^ k + base < 256) (bs bs' : List UInt8) :
    digits64 base k m ++ bs < digits64 base k n ++ bs' := by
  induction k generalizing m n bs bs' with
  | zero => exact ofNat_cons_lt (by omega) (by simpa using hn)
  | succ k ih =>
    rw [digits64, digits64, List.append_assoc, List.append_assoc]
    rcases Nat.lt_or_eq_of_le (Nat.div_le_div_right (c := 64) (Nat.le_of_lt h)) with hdiv | hdiv
    · exact ih hdiv (by rwa [Nat.div_div_eq_div_mul, ← Nat.pow_succ']) _ _
    · rw [hdiv]
      exact List.append_left_lt (ofNat_cons_lt (by omega) (by omega))

/-! ### Characters -/

/-- How many bytes follow the first one in the form of a code point. -/
def trailing (n : Nat) : Nat :=
  if n < 0x80 then 0 else if n < 0x800 then 1 else if n < 0x10000 then 2 else 3

/-- From where the first byte counts if so many bytes follow it. -/
def leadBase : Nat → Nat
  | 0 => 0
  | 1 => 0xC0
  | 2 => 0xE0
  | _ => 0xF0

lemma toNat_val_lt (c : Char) : c.val.toNat < 0x110000 := by
  rcases c.valid with h | h <;> omega

lemma utf8EncodeChar_eq_digits64 (c : Char) :
    String.utf8EncodeChar c =
      digits64 (leadBase (trailing c.val.toNat)) (trailing c.val.toNat) c.val.toNat := by
  have hlt := toNat_val_lt c
  have hsecond (n : Nat) : n / 4096 = n / 64 / 64 := by omega
  have hthird (n : Nat) : n / 262144 = n / 64 / 64 / 64 := by omega
  unfold String.utf8EncodeChar trailing
  simp only [hsecond, hthird]
  generalize c.val.toNat = n at *
  split_ifs
  -- the remainders that only cut off the first digit do nothing in their range
  all_goals
    first
    | omega
    | simp (disch := omega) only [digits64, leadBase, Nat.mod_eq_of_lt, Nat.add_zero,
        List.nil_append, List.cons_append]

/-- The first byte of a form. -/
def lead (n : Nat) : Nat := n / 64 ^ trailing n + leadBase (trailing n)

lemma lead_lt (hn : n < 0x110000) : lead n < 256 := by
  unfold lead trailing
  split_ifs <;> simp only [leadBase] <;> omega

/-- A form with more bytes than another has the greater first byte. -/
lemma lead_lt_lead (h : m < n) (hne : trailing m ≠ trailing n) : lead m < lead n := by
  unfold trailing at hne
  unfold lead trailing
  split_ifs at * <;> simp only [leadBase] <;> omega

/-- A character below another one decides the comparison, whatever follows the two. -/
lemma utf8EncodeChar_append_lt {c d : Char} (h : c < d) (bs bs' : List UInt8) :
    String.utf8EncodeChar c ++ bs < String.utf8EncodeChar d ++ bs' := by
  have hlt : c.val.toNat < d.val.toNat := h
  have hlead : lead d.val.toNat < 256 := lead_lt (toNat_val_lt d)
  rw [utf8EncodeChar_eq_digits64, utf8EncodeChar_eq_digits64]
  by_cases hlength : trailing c.val.toNat = trailing d.val.toNat
  · rw [hlength]
    exact digits64_append_lt hlt hlead bs bs'
  · obtain ⟨tail, htail⟩ := exists_digits64_eq_cons
      (leadBase (trailing c.val.toNat)) (trailing c.val.toNat) c.val.toNat
    obtain ⟨tail', htail'⟩ := exists_digits64_eq_cons
      (leadBase (trailing d.val.toNat)) (trailing d.val.toNat) d.val.toNat
    rw [htail, htail']
    exact ofNat_cons_lt (lead_lt_lead hlt hlength) hlead

/-! ### Texts -/

lemma bytes_lt_of_lt {cs ds : List Char} (h : cs < ds) : bytes cs < bytes ds := by
  induction cs generalizing ds with
  | nil =>
    have hne : ds ≠ [] := fun heq => List.not_lt_nil _ (heq ▸ h)
    obtain ⟨b, bs, hbs⟩ := List.exists_cons_of_ne_nil (bytes_ne_nil hne)
    rw [hbs]
    exact List.nil_lt_cons b bs
  | cons c cs ih =>
    obtain - | ⟨d, ds⟩ := ds
    · exact absurd h (List.not_lt_nil _)
    rw [bytes, bytes, List.flatMap_cons, List.flatMap_cons]
    rcases List.cons_lt_cons_iff.mp h with hc | ⟨rfl, htail⟩
    · exact utf8EncodeChar_append_lt hc _ _
    · exact List.append_left_lt (ih htail)

/-- Texts are ordered as their bytes are. -/
theorem lt_iff_toUTF8_lt {s t : String} : s < t ↔ s.toUTF8.toList < t.toUTF8.toList := by
  rw [String.lt_iff_toList_lt, toList_toUTF8, toList_toUTF8]
  refine ⟨bytes_lt_of_lt, fun h => ?_⟩
  rcases lt_trichotomy s.toList t.toList with hst | hst | hts
  · exact hst
  · rw [hst] at h
    exact absurd h (List.lt_irrefl _)
  · exact absurd h (List.lt_asymm (bytes_lt_of_lt hts))

end BraceLisp.Text
