import BraceLisp.Proofs.Attempts
import BraceLisp.Proofs.Recognition

/-!
A budget of open groups.

A scan keeps a list of the groups that are open. Where the search for a bracket that nests too deep
finds nothing, the list stays as short as the limit says (`Scan.allows_run`), also on a source that
is refused later. The grammar's attempts have no more groups open than the scan, which gets to all
of them. A scan that gives up as soon as more groups are open than a budget comes to the same as one
without a budget if the list stays that short, and only then (`Scan.runWithin_eq_some_iff`). So the
limit on nesting is a budget that is never exceeded (`open_groups_keep_to_limit`).
-/

namespace BraceLisp

open Grammar

/-! ### What the search allows -/

namespace Nesting

/-- The limit allows that `depth` brackets are open, and the search finds none after them that is
too deep. -/
def Allows (limit pos depth : Nat) (inComment : Bool) (cs : List Char) : Prop :=
  depth ≤ limit ∧ tooDeepFrom? limit pos depth inComment cs = none

variable {limit pos depth : Nat} {inComment : Bool} {c : Char} {cs : List Char} {b : Bracket}

lemma Allows.opening (h : Allows limit pos depth false (b.opening :: cs)) :
    Allows limit (pos + 1) (depth + 1) false cs := by
  obtain ⟨-, hsearch⟩ := h
  rw [tooDeepFrom?_opening] at hsearch
  split at hsearch
  · cases hsearch
  · next hlimit => exact ⟨Nat.le_of_not_lt hlimit, hsearch⟩

lemma Allows.closing (h : Allows limit pos (depth + 1) false (b.closing :: cs)) :
    Allows limit (pos + 1) depth false cs := by
  obtain ⟨hdepth, hsearch⟩ := h
  rw [tooDeepFrom?_closing, Nat.add_sub_cancel] at hsearch
  exact ⟨Nat.le_of_succ_le hdepth, hsearch⟩

/-- In comments all characters are passed over, and outside of them those that are no brackets. -/
lemma Allows.skip (h : Allows limit pos depth inComment (c :: cs))
    (hc : inComment = true ∨ Text.isBracket c = false) :
    Allows limit (pos + c.utf8Size) depth (Text.commentAfter inComment c) cs := by
  obtain ⟨hdepth, hsearch⟩ := h
  refine ⟨hdepth, ?_⟩
  cases inComment with
  | true => exact hsearch
  | false =>
    obtain ⟨hopening, hclosing⟩ := Bool.or_eq_false_iff.mp (hc.resolve_left Bool.false_ne_true)
    by_cases hsemicolon : c = ';'
    · subst hsemicolon
      exact hsearch
    · rw [tooDeepFrom?_other hsemicolon hopening hclosing] at hsearch
      rwa [Text.commentAfter_of_ne hsemicolon]

end Nesting

namespace Scan

variable {limit budget : Nat} {s t : Scan} {c : Char} {cs rest : List Char}

/-! ### The list of open groups -/

/-- The limit allows the groups that are open, and those that the brackets of a text open. -/
def Allows (s : Scan) (limit : Nat) (cs : List Char) : Prop :=
  Nesting.Allows limit s.pos s.groups.length s.inComment cs

lemma allows_step (h : s.step c = some t) (hs : s.Allows limit (c :: cs)) :
    t.Allows limit cs := by
  obtain ⟨hcomment, hgroups⟩ := step_groups h
  rw [Allows, step_pos h, hcomment]
  rw [Allows] at hs
  rcases hgroups with ⟨hc, hgroups⟩ | ⟨hplace, ⟨b, rfl, hgroups⟩ | ⟨g, rfl, hgroups⟩⟩
  · rw [hgroups]
    exact hs.skip hc
  · rw [hplace] at hs
    rw [hplace, Text.commentAfter_of_ne b.opening_ne_semicolon, hgroups, Bracket.utf8Size_opening]
    exact hs.opening
  · rw [hplace, hgroups] at hs
    rw [hplace, Text.commentAfter_of_ne g.kind.closing_ne_semicolon, Bracket.utf8Size_closing]
    exact hs.closing

lemma allows_run (h : s.run cs = .ok t) (hs : s.Allows limit (cs ++ rest)) :
    t.Allows limit rest := by
  induction cs generalizing s with
  | nil => cases h; exact hs
  | cons c cs ih =>
    obtain ⟨u, hc, h⟩ := run_cons_eq_ok.mp h
    exact ih h (allows_step hc hs)

/-! ### Budgets -/

/-- Reads as `run` does, but gives up as soon as more groups are open than the budget allows. -/
def runWithin (budget : Nat) (s : Scan) : List Char → Option (Except Scan Scan)
  | [] => some (.ok s)
  | c :: cs =>
    match s.step c with
    | none => some (.error s)
    | some t => if t.groups.length ≤ budget then t.runWithin budget cs else none

/-- Wherever the scan gets in a text, no more groups are open than the budget says. -/
def StaysWithin (budget : Nat) (s : Scan) (cs : List Char) : Prop :=
  ∀ before after t, cs = before ++ after → s.run before = .ok t → t.groups.length ≤ budget

lemma staysWithin_cons_iff (hs : s.groups.length ≤ budget) :
    s.StaysWithin budget (c :: cs) ↔ ∀ t, s.step c = some t → t.StaysWithin budget cs := by
  constructor
  · intro h t hstep before after u hcs hrun
    exact h (c :: before) after u (by rw [hcs, List.cons_append])
      (by rw [run_cons_of_step hstep, hrun])
  · intro h before after u hcs hrun
    cases before with
    | nil => cases hrun; exact hs
    | cons d before =>
      obtain ⟨rfl, htail⟩ := List.cons.inj hcs
      obtain ⟨t, hstep, hrun⟩ := run_cons_eq_ok.mp hrun
      exact h t hstep before after u htail hrun

lemma StaysWithin.groups (h : s.StaysWithin budget cs) : s.groups.length ≤ budget :=
  h [] cs s rfl rfl

/-- A budget makes no difference exactly if it is not exceeded. -/
lemma runWithin_eq_some_iff (hs : s.groups.length ≤ budget) :
    s.runWithin budget cs = some (s.run cs) ↔ s.StaysWithin budget cs := by
  induction cs generalizing s with
  | nil =>
    refine ⟨fun _ before after t hcs hrun => ?_, fun _ => rfl⟩
    rw [(List.append_eq_nil_iff.mp hcs.symm).1] at hrun
    cases hrun
    exact hs
  | cons c cs ih =>
    rw [staysWithin_cons_iff hs, runWithin, run_cons]
    cases hstep : s.step c with
    | none => exact ⟨fun _ _ => nofun, fun _ => rfl⟩
    | some t =>
      simp only [Option.some.injEq, forall_eq']
      by_cases ht : t.groups.length ≤ budget
      · rw [if_pos ht]
        exact ih ht
      · rw [if_neg ht]
        exact ⟨nofun, fun h => absurd h.groups ht⟩

end Scan

/-- The program of a source, if no more groups are open anywhere than the budget allows. -/
def Program.ofSourceWithin (budget : Nat) (source : String) : Option (Except ParseError Program) :=
  (Scan.init.runWithin budget source.toList).map fun result =>
    (result.bind Scan.finish).mapError (Scan.parseError source)

/-- **Open groups keep to the limit.** Where no bracket of a source nests too deep, well formed or
not, no more groups are open than the limit says: neither around an expression that the grammar
tries, on the way to a tree or to a failure, nor in a state of the scan, up to where it stops. So
with the limit as its budget the scan comes to the same tree or to the same error as without. -/
theorem open_groups_keep_to_limit {source : String} {limit : Nat}
    (h : Nesting.tooDeep? limit source.toList = none) :
    (∀ a, Relation.ReflTransGen Attempt.Tries (.program source.toList) a → a.opened ≤ limit) ∧
    (∀ before after s, source.toList = before ++ after → Scan.init.run before = .ok s →
      s.groups.length ≤ limit) ∧
    Program.ofSourceWithin limit source = some (Program.ofSource source) := by
  have hinit : Scan.init.Allows limit source.toList := ⟨Nat.zero_le limit, h⟩
  have hscan : Scan.init.StaysWithin limit source.toList := by
    intro before after s hsource hrun
    rw [hsource] at hinit
    exact (Scan.allows_run hrun hinit).1
  refine ⟨fun a ha => ?_, hscan, ?_⟩
  · obtain ⟨s, ⟨before, hsource, hrun⟩, hat⟩ := Attempt.exists_scan ha
    rw [← hat.opened]
    exact hscan before a.rest s hsource hrun
  have hbudget := (Scan.runWithin_eq_some_iff (Nat.zero_le limit)).mpr hscan
  rw [Program.ofSourceWithin, hbudget, Option.map_some]
  rfl

/-- The closing bracket does not match, so the groups after it are never opened. -/
theorem open_groups_keep_to_limit_mismatched :
    Nesting.tooDeep? 2 "(\x7b1))((".toList = none ∧
      (∀ a, Relation.ReflTransGen Attempt.Tries (.program "(\x7b1))((".toList) a → a.opened ≤ 2) ∧
      (∀ before after s, "(\x7b1))((".toList = before ++ after → Scan.init.run before = .ok s →
        s.groups.length ≤ 2) ∧
      Program.ofSourceWithin 2 "(\x7b1))((" = some (Program.ofSource "(\x7b1))((") := by
  have h : Nesting.tooDeep? 2 "(\x7b1))((".toList = none := by decide
  exact ⟨h, open_groups_keep_to_limit h⟩

example : Program.ofSourceWithin 1 "(\x7b1))((" = none := rfl

end BraceLisp
