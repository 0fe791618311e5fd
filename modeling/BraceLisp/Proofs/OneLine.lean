import BraceLisp.Proofs.Printable
import BraceLisp.Proofs.Settled

/-!
Values that print on one line.

No symbol that the grammar reads has a line break in it, and no message of an error does, but for
the names of symbols that some of them repeat. So this lasts (`Value.lasting_unbroken`): whatever
source text is evaluated, every value that comes up prints on one line.
-/

namespace BraceLisp

open Grammar

namespace Text

/-- There is no line feed and no carriage return in the text. -/
def OneLine (s : String) : Prop := ∀ c ∈ s.toList, c ≠ '\n' ∧ c ≠ '\r'

instance (s : String) : Decidable (OneLine s) :=
  List.decidableBAll (fun c => c ≠ '\n' ∧ c ≠ '\r') s.toList

@[simp] lemma oneLine_append {s t : String} : OneLine (s ++ t) ↔ OneLine s ∧ OneLine t := by
  simp only [OneLine, String.toList_append, List.forall_mem_append]

lemma oneLine_of_isSymbolChar {s : String} (h : ∀ c ∈ s.toList, isSymbolChar c = true) :
    OneLine s :=
  fun c hc => ⟨ne_of_isSymbolChar (h c hc) rfl, ne_of_isSymbolChar (h c hc) rfl⟩

/-- A number has digits only. -/
@[simp] lemma oneLine_toString (n : Nat) : OneLine (toString n) := by
  refine oneLine_of_isSymbolChar fun c hc => isSymbolChar_of_isDigit ?_
  rw [Nat.toString_eq_repr, Nat.toList_repr] at hc
  exact Nat.isDigit_of_mem_toDigits (by decide) (by decide) hc

lemma oneLine_intercalate {s : String} {ts : List String} (hs : OneLine s)
    (hts : ∀ t ∈ ts, OneLine t) : OneLine (s.intercalate ts) := by
  induction ts with
  | nil => exact nofun
  | cons t ts ih =>
    obtain ⟨ht, hts⟩ := List.forall_mem_cons.mp hts
    by_cases hne : ts = []
    · subst hne
      simpa using ht
    · rw [String.intercalate_cons_of_ne_nil hne]
      simp [ht, hs, ih hts]

end Text

open Text

/-! ### Messages -/

lemma Builtin.oneLine_name (b : Builtin) : OneLine b.name := by
  cases b with
  | define reach => cases reach <;> decide
  | arithmetic op => cases op <;> decide
  | _ => decide

lemma Value.Kind.oneLine_name (k : Value.Kind) : OneLine k.name := by
  cases k <;> decide

/-- Messages have no line breaks of their own. -/
lemma EvalError.oneLine_message {e : EvalError} (h : e.Plain) : OneLine e.message := by
  cases e with
  | unbound name => exact h.elim
  | unknownNode tag => exact h.elim
  | _ =>
    unfold message
    simp only [oneLine_append, oneLine_toString, Builtin.oneLine_name, Value.Kind.oneLine_name,
      and_true]
    simp [OneLine]

namespace Value

/-- The texts that the value itself holds are on one line. As with all that lasts, a closure has
captured settled values only. -/
def Unbroken : Value → Prop
  | symbol name => OneLine name
  | error message => OneLine message
  | closure formals _ captured =>
    (∀ f ∈ formals, OneLine f) ∧ ∀ b ∈ captured.entries, b.2.Settled
  | _ => True

lemma lasting_unbroken : Lasting Unbroken where
  number _ := trivial
  builtin _ := trivial
  sexpr _ := trivial
  qexpr _ := trivial
  error _ h := EvalError.oneLine_message h
  unbound name h := by
    have hname : OneLine name := h
    have hmessage : OneLine (EvalError.unbound name).message := by
      unfold EvalError.message
      simp only [oneLine_append, hname, and_true]
      simp [OneLine]
    exact hmessage
  closure _ _ _ := Iff.rfl

/-! ### Printing -/

lemma oneLine_enclose {b : Bracket} {s : String} (h : OneLine s) : OneLine (b.enclose s) := by
  rw [Bracket.enclose, oneLine_append, oneLine_append]
  cases b <;> exact ⟨⟨by decide, h⟩, by decide⟩

mutual

/-- What is unbroken throughout prints on one line. -/
lemma oneLine_render : ∀ v : Value, v.All Unbroken → OneLine v.render
  | number n, _ => by
    refine oneLine_of_isSymbolChar ?_
    rw [render, String.toList_ofList]
    exact (isWord_decimal n.toInt).2
  | symbol name, h => by
    rw [render]
    exact h.self
  | error message, h => by
    rw [render, oneLine_append]
    exact ⟨by decide, h.self⟩
  | builtin _, _ => by
    rw [render]
    decide
  | closure formals body captured, h => by
    obtain ⟨⟨hformals, -⟩, hbody, -⟩ := all_closure.mp h
    have hspace : OneLine " " := by decide
    have hnames : OneLine (Bracket.curly.enclose (" ".intercalate formals)) :=
      oneLine_enclose (oneLine_intercalate hspace hformals)
    have hcells : OneLine (Bracket.curly.enclose (renderAll body)) :=
      oneLine_enclose (oneLine_renderAll body hbody)
    rw [render]
    refine oneLine_enclose ?_
    simp only [oneLine_append, hnames, hspace, hcells, and_true]
    decide
  | sexpr cells, h => by
    rw [render]
    exact oneLine_enclose (oneLine_renderAll cells (all_sexpr.mp h).2)
  | qexpr cells, h => by
    rw [render]
    exact oneLine_enclose (oneLine_renderAll cells (all_qexpr.mp h).2)

lemma oneLine_renderAll : ∀ vs : List Value, (∀ v ∈ vs, v.All Unbroken) → OneLine (renderAll vs)
  | [], _ => by
    rw [renderAll]
    decide
  | [v], h => by
    rw [renderAll]
    exact oneLine_render v (h v List.mem_cons_self)
  | v :: w :: vs, h => by
    obtain ⟨hv, hvs⟩ := List.forall_mem_cons.mp h
    rw [renderAll, oneLine_append, oneLine_append]
    exact ⟨⟨oneLine_render v hv, by decide⟩, oneLine_renderAll (w :: vs) hvs⟩

end

lemma Within.trans {u v w : Value} (huv : u.Within v) (hvw : v.Within w) : u.Within w := by
  induction hvw with
  | self => exact huv
  | sexpr hc _ ih => exact .sexpr hc ih
  | qexpr hc _ ih => exact .qexpr hc ih
  | body hc _ ih => exact .body hc ih
  | captured hb _ ih => exact .captured hb ih

/-- The value and all that stands in it print on one line. -/
def PrintsOnOneLine (v : Value) : Prop := v.All fun w => OneLine w.render

lemma All.printsOnOneLine {v : Value} (h : v.All Unbroken) : v.PrintsOnOneLine :=
  fun w hw => oneLine_render w fun _ hu => h _ (hu.trans hw)

end Value

/-! ### Reading -/

/-- A well-formed form reads as a value that is unbroken throughout. -/
lemma Form.WellFormed.unbroken {f : Form} (h : f.WellFormed) : f.value.All Value.Unbroken := by
  induction h with
  | number =>
    unfold value Value.ofNumeral
    split
    · exact Value.all_number.mpr trivial
    · exact Value.all_error.mpr (EvalError.oneLine_message trivial)
  | symbol hword => exact Value.all_symbol.mpr (oneLine_of_isSymbolChar hword.2)
  | @group kind span members _ ih =>
    have hmembers : ∀ v ∈ values members, v.All Value.Unbroken := by
      intro v hv
      obtain ⟨f, hf, rfl⟩ := mem_values.mp hv
      exact ih f hf
    cases kind
    · exact Value.all_sexpr.mpr ⟨trivial, hmembers⟩
    · exact Value.all_qexpr.mpr ⟨trivial, hmembers⟩

/-- What is read from source text is unbroken throughout. -/
lemma Value.unbroken_ofTree {source : String} {nesting : Nat} {t : Tree}
    (h : Tree.parse source nesting = .ok t) : (Value.ofTree t).All Value.Unbroken := by
  obtain ⟨p, hp, rfl⟩ := Tree.parse_eq_ok.mp h
  have hforms := Program.wellFormed_of_ofChars (Program.parse_eq_ok.mp hp).2
  rw [Value.ofTree_program]
  refine Value.all_sexpr.mpr ⟨trivial, fun v hv => ?_⟩
  obtain ⟨f, hf, rfl⟩ := Form.mem_values.mp hv
  exact (hforms f hf).unbroken

/-! ### Sessions -/

namespace Session

variable {s : Session} {source : String}

/-- What is bound is unbroken throughout. -/
def Unbroken (s : Session) : Prop := s.evaluator.scopes.Holds Value.Unbroken

lemma unbroken_init (depth nesting : Nat) : (init depth nesting).Unbroken :=
  Evaluator.withBuiltins_holds Value.lasting_unbroken depth

/-- The value of a program is unbroken throughout, and so is what is bound after it. -/
lemma Unbroken.evalTree (hs : s.Unbroken) {nesting : Nat} {t : Tree}
    (ht : Tree.parse source nesting = .ok t) :
    (s.evalTree t).2.Unbroken ∧ (s.evalTree t).1.All Value.Unbroken := by
  obtain ⟨hscopes, hanswer⟩ :=
    Evaluator.eval_sound Value.lasting_unbroken hs (Value.unbroken_ofTree ht)
  exact ⟨hscopes, hanswer.2⟩

end Session

end BraceLisp
