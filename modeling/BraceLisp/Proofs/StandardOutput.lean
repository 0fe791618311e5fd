import BraceLisp.Proofs.InputLines
import BraceLisp.Proofs.OneLine
import Mathlib.Data.List.Forall2

/-!
What is written for the programs in the standard input.

A session that is handed source text only binds nothing that is broken, so each program that parses
is answered on one line (`Session.interpret_writes`), and for the others nothing is written. This
carries over to any number of programs, and to the lines of any text (`one_line_per_program`).
-/

namespace BraceLisp

/-- What is written for a program: nothing if it does not parse, and one line if it does. -/
def WrittenFor (source output : String) : Prop :=
  (∀ e, Tree.parse source defaultNesting = .error e → output = "") ∧
  ∀ t, Tree.parse source defaultNesting = .ok t →
    ∃ line, Text.OneLine line ∧ output = line ++ "\n"

/-- Nothing is asked for but the values of programs. -/
def Options.ValuesOnly (o : Options) : Prop :=
  o.showTree = false ∧ o.showValue = false ∧ o.expression = none

namespace Session

variable {s : Session} {o : Options}

/-- A session as it is between the programs of a run. -/
structure Plain (s : Session) : Prop where
  nesting : s.nesting = defaultNesting
  unbroken : s.Unbroken

lemma interpret_writes (hs : s.Plain) (ho : o.ValuesOnly) (name source : String) :
    (s.interpret o name source).2.Plain ∧
      WrittenFor source (s.interpret o name source).1.stdout := by
  obtain ⟨htree, hvalue, -⟩ := ho
  unfold interpret WrittenFor
  rw [hs.nesting]
  cases h : Tree.parse source defaultNesting with
  | error e => exact ⟨hs, fun _ _ => rfl, nofun⟩
  | ok t =>
    obtain ⟨hlast, hanswer⟩ := hs.unbroken.evalTree h
    refine ⟨⟨hs.nesting, hlast⟩, nofun, fun _ _ => ?_⟩
    refine ⟨(s.evalTree t).1.render, Value.oneLine_render _ hanswer, ?_⟩
    simp [htree, hvalue, evalTree]

lemma interpretAll_writes (hs : s.Plain) (ho : o.ValuesOnly) (name : String)
    (sources : List String) : ∃ outputs, List.Forall₂ WrittenFor sources outputs ∧
      (s.interpretAll o name sources).1.stdout = String.join outputs := by
  induction sources generalizing s with
  | nil => exact ⟨[], .nil, rfl⟩
  | cons source rest ih =>
    obtain ⟨hnext, hwritten⟩ := interpret_writes hs ho name source
    obtain ⟨outputs, hall, hjoin⟩ := ih hnext
    refine ⟨_ :: outputs, .cons hwritten hall, ?_⟩
    rw [String.join_cons, ← hjoin]
    rfl

/-- A session that evaluates source text replies with values that are unbroken throughout. -/
lemma perform_unbroken (hs : s.Unbroken) (source : String) :
    (s.perform (.evalSource source)).2.Unbroken ∧
      ∀ v, (s.perform (.evalSource source)).1 = .value v → v.All Value.Unbroken := by
  cases h : Tree.parse source s.nesting with
  | error e =>
    have hrefused : s.perform (.evalSource source) = (.refused (.parse e), s) := by
      simp [perform, evalSource, h]
    rw [hrefused]
    refine ⟨hs, ?_⟩
    rintro _ ⟨⟩
  | ok t =>
    have hvalue : s.perform (.evalSource source) = (.value (s.evalTree t).1, (s.evalTree t).2) := by
      simp [perform, evalSource, h]
    obtain ⟨hlast, hanswer⟩ := hs.evalTree h
    rw [hvalue]
    refine ⟨hlast, ?_⟩
    rintro _ ⟨⟩
    exact hanswer

lemma run_unbroken (depth nesting : Nat) (sources : List String) :
    ((init depth nesting).run (sources.map .evalSource)).2.Unbroken ∧
      ∀ reply ∈ ((init depth nesting).run (sources.map .evalSource)).1,
        ∀ v, reply = .value v → v.All Value.Unbroken := by
  refine run_induction (P := fun r => ∃ source, r = .evalSource source) ?_
    (unbroken_init depth nesting) fun r hr => ?_
  · rintro s _ hs ⟨source, rfl⟩
    exact perform_unbroken hs source
  · obtain ⟨source, -, rfl⟩ := List.mem_map.mp hr
    exact ⟨source, rfl⟩

end Session

/-- **A run writes one line for each program.** Where nothing is asked for but values, and the
standard input is text, all of it is read, and the output is that for its programs one after
another: nothing for one that does not parse, and a line for one that does. For no value that comes
up where source text is evaluated is printed on more than one line: no reply, nothing that is bound,
and nothing that is evaluated or bound within an evaluation. -/
theorem one_line_per_program :
    (∀ (args : List String) (o : Options) (text : String), Options.ofArguments? args = some o →
      o.ValuesOnly → ∃ outputs,
        List.Forall₂ WrittenFor
          (LineBuffer.programs ((Text.inputLines text.toList).map String.ofList)) outputs ∧
        (CommandLine.run args text.toUTF8.toList).exit = .success ∧
        (CommandLine.run args text.toUTF8.toList).output.stdout = String.join outputs) ∧
    ∀ (depth nesting : Nat) (sources : List String),
      let replies := ((Session.init depth nesting).run (sources.map .evalSource)).1
      let s := ((Session.init depth nesting).run (sources.map .evalSource)).2
      (∀ v, Reply.value v ∈ replies → v.PrintsOnOneLine) ∧
      (∀ b ∈ s.globals.entries, b.2.PrintsOnOneLine) ∧
      ∀ source limit t n w, Tree.parse source limit = .ok t →
        Evaluator.Contains (s.evaluator, .ofTree t) (n, w) →
        w.PrintsOnOneLine ∧ (n.eval w).1.PrintsOnOneLine ∧
          ∀ frame ∈ n.scopes.frames, ∀ b ∈ frame.entries, b.2.PrintsOnOneLine := by
  constructor
  · intro args o text hargs ho
    have hplain : Session.default.Plain := ⟨rfl, Session.unbroken_init _ _⟩
    obtain ⟨outputs, hall, hjoin⟩ := Session.interpretAll_writes hplain ho "<stdin>"
      (LineBuffer.programs ((Text.inputLines text.toList).map String.ofList))
    have hrun : CommandLine.run args text.toUTF8.toList =
        ⟨.success, (Session.default.interpretAll o "<stdin>"
          (LineBuffer.programs ((Text.inputLines text.toList).map String.ofList))).1⟩ := by
      rw [CommandLine.run, hargs]
      dsimp only
      rw [ho.2.2]
      dsimp only
      rw [CommandLine.runLines, CommandLine.decodeLines_toUTF8]
      rfl
    exact ⟨outputs, hall, by rw [hrun], by rw [hrun]; exact hjoin⟩
  · intro depth nesting sources replies s
    obtain ⟨hs, hreplies⟩ := Session.run_unbroken depth nesting sources
    refine ⟨fun v hv => (hreplies _ hv v rfl).printsOnOneLine, fun b hb => ?_,
      fun source limit t n w ht hn => ?_⟩
    · have hglobal : s.globals.Holds Value.Unbroken := (Scopes.holds_iff.mp hs).2
      exact (hglobal b hb).2.printsOnOneLine
    · obtain ⟨hscopes, hw⟩ := hn.holds Value.lasting_unbroken hs (Value.unbroken_ofTree ht)
      obtain ⟨-, hanswer⟩ := Evaluator.eval_sound Value.lasting_unbroken hscopes hw
      exact ⟨hw.printsOnOneLine, hanswer.2.printsOnOneLine,
        fun frame hframe b hb => (hscopes frame hframe b hb).2.printsOnOneLine⟩

/-- A program of two lines, the first of which ends with a carriage return as well, and a bracket
that does not parse; and the message of an error that repeats a name. -/
theorem one_line_per_program_unbound :
    Options.ofArguments? [] = some .initial ∧ Options.initial.ValuesOnly ∧
    (∃ outputs,
      List.Forall₂ WrittenFor
        (LineBuffer.programs ((Text.inputLines "(+ 1\r\n2)\n)".toList).map String.ofList)) outputs ∧
      (CommandLine.run [] "(+ 1\r\n2)\n)".toUTF8.toList).exit = .success ∧
      (CommandLine.run [] "(+ 1\r\n2)\n)".toUTF8.toList).output.stdout = String.join outputs) ∧
    Reply.value (.error "unbound symbol 'x'") ∈ ((Session.init 8 8).run [.evalSource "x"]).1 ∧
    (Value.error "unbound symbol 'x'").PrintsOnOneLine ∧
    ∃ t, Tree.parse "1 \n2" 8 = .ok t ∧
      Evaluator.Contains ((Session.init 8 8).evaluator, .ofTree t)
        ((Session.init 8 8).evaluator, .ofTree t) ∧
      (Value.ofTree t).PrintsOnOneLine := by
  have hargs : Options.ofArguments? [] = some .initial := rfl
  have hvalues : Options.initial.ValuesOnly := ⟨rfl, rfl, rfl⟩
  have hreply : Reply.value (.error "unbound symbol 'x'") ∈
      ((Session.init 8 8).run [.evalSource "x"]).1 := by
    have hrun : ((Session.init 8 8).run [.evalSource "x"]).1 =
        [.value (.error "unbound symbol 'x'")] := rfl
    rw [hrun]
    exact List.mem_singleton_self _
  let p : Program := ⟨[.number ⟨0, 1⟩ "1", .number ⟨3, 4⟩ "2"], 4⟩
  have hparse : Tree.parse "1 \n2" 8 = .ok p.toTree := rfl
  refine ⟨hargs, hvalues, one_line_per_program.1 [] _ _ hargs hvalues, hreply, ?_,
    p.toTree, hparse, .refl, ?_⟩
  · exact (one_line_per_program.2 8 8 ["x"]).1 _ hreply
  · exact ((one_line_per_program.2 8 8 []).2.2 _ _ _ _ _ hparse .refl).1

end BraceLisp
