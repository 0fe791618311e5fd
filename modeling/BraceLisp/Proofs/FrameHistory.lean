import BraceLisp.Proofs.AllOrNothing
import Mathlib.Data.List.Basic

/-!
What frames hold after any number of pushes, pops and definitions.

A push and its pop match as brackets do (`Scopes.Closed`). What stands between them changes the
pushed frame by its own definitions only (`Scopes.calls_run_closed`), and a call that is active was
entered by a push that nothing after it has matched (`Scopes.calls_run_cases`). The global frame
takes the definitions that reach it, and pushes and pops do nothing to it
(`Scopes.global_run`).
-/

namespace BraceLisp.Scopes

/-- What may be done to scopes. -/
inductive Action where
  | push (frame : Frame)
  | pop
  | define (reach : Reach) (name : String) (value : Value)

/-- A pop that is refused changes nothing. -/
def act (s : Scopes) : Action → Scopes
  | .push frame => s.push frame
  | .pop => match s.pop? with | some (_, t) => t | none => s
  | .define reach name value => s.define reach name value

def run (s : Scopes) (actions : List Action) : Scopes := actions.foldl act s

/-- Every frame that is pushed is popped again, and no other. `own` are the definitions made while
none of them is there, in the innermost frame. -/
inductive Closed : List Action → List (String × Value) → Prop where
  | nil : Closed [] []
  | innermost {name : String} {value : Value} {actions : List Action}
      {own : List (String × Value)} (h : Closed actions own) :
      Closed (.define .innermost name value :: actions) ((name, value) :: own)
  | outermost {name : String} {value : Value} {actions : List Action}
      {own : List (String × Value)} (h : Closed actions own) :
      Closed (.define .outermost name value :: actions) own
  | call {frame : Frame} {inner actions : List Action} {theirs own : List (String × Value)}
      (hinner : Closed inner theirs) (h : Closed actions own) :
      Closed (.push frame :: (inner ++ .pop :: actions)) own

/-- The definitions that reach the global frame, when `depth` calls are active before the
actions: those made there, and those made while it is the only frame. -/
def globalDefinitions (depth : Nat) : List Action → List (String × Value)
  | [] => []
  | .push _ :: actions => globalDefinitions (depth + 1) actions
  | .pop :: actions => globalDefinitions (depth - 1) actions
  | .define reach name value :: actions =>
    if reach = .outermost ∨ depth = 0 then (name, value) :: globalDefinitions depth actions
    else globalDefinitions depth actions

variable {s : Scopes} {actions more : List Action} {own own' : List (String × Value)}

/-! ### Steps and runs -/

lemma run_append (s : Scopes) (actions more : List Action) :
    s.run (actions ++ more) = (s.run actions).run more := List.foldl_append

lemma calls_act_pop (s : Scopes) : (s.act .pop).calls = s.calls.tail := by
  obtain ⟨_ | ⟨frame, rest⟩, global⟩ := s <;> rfl

lemma global_act_pop (s : Scopes) : (s.act .pop).global = s.global := by
  obtain ⟨_ | ⟨frame, rest⟩, global⟩ := s <;> rfl

lemma calls_define (s : Scopes) (reach : Reach) (name : String) (value : Value) :
    (s.define reach name value).calls =
      if reach = .outermost then s.calls else s.calls.modifyHead (·.insert name value) := by
  obtain ⟨_ | ⟨frame, rest⟩, global⟩ := s <;> cases reach <;> rfl

lemma global_define (s : Scopes) (reach : Reach) (name : String) (value : Value) :
    (s.define reach name value).global =
      if reach = .outermost ∨ s.calls.length = 0 then s.global.insert name value
      else s.global := by
  obtain ⟨_ | ⟨frame, rest⟩, global⟩ := s <;> cases reach <;> rfl

lemma length_calls_define (s : Scopes) (reach : Reach) (name : String) (value : Value) :
    (s.define reach name value).calls.length = s.calls.length := by
  rw [calls_define]
  split
  · rfl
  · rw [List.length_modifyHead]

/-- The global frame takes the definitions that reach it, in their order. -/
lemma global_run (s : Scopes) (actions : List Action) :
    (s.run actions).global = s.global.insertAll (globalDefinitions s.calls.length actions) := by
  induction actions generalizing s with
  | nil => rfl
  | cons action actions ih =>
    have hrun : (s.run (action :: actions)).global = ((s.act action).run actions).global := rfl
    rw [hrun, ih]
    cases action with
    | push frame => rfl
    | pop => rw [global_act_pop, calls_act_pop, List.length_tail, globalDefinitions]
    | define reach name value =>
      rw [act, length_calls_define, global_define, globalDefinitions]
      split <;> rfl

/-! ### Matching pushes and pops -/

lemma Closed.append (h : Closed actions own) (h' : Closed more own') :
    Closed (actions ++ more) (own ++ own') := by
  induction h with
  | nil => exact h'
  | innermost _ ih => exact .innermost ih
  | outermost _ ih => exact .outermost ih
  | call hinner _ _ ih =>
    rw [List.cons_append, List.append_assoc, List.cons_append]
    exact .call hinner ih

/-- The innermost call takes its own definitions, and the other calls are as they were. -/
lemma calls_run_closed (h : Closed actions own) (s : Scopes) :
    (s.run actions).calls = s.calls.modifyHead (·.insertAll own) := by
  induction h generalizing s with
  | nil => exact (congrFun List.modifyHead_id s.calls).symm
  | @innermost name value actions own _ ih =>
    have hrun : s.run (.define .innermost name value :: actions) =
        (s.define .innermost name value).run actions := rfl
    rw [hrun, ih, calls_define, if_neg nofun, List.modifyHead_modifyHead]
    rfl
  | @outermost name value actions own _ ih =>
    have hrun : s.run (.define .outermost name value :: actions) =
        (s.define .outermost name value).run actions := rfl
    rw [hrun, ih, calls_define, if_pos rfl]
  | @call frame inner actions theirs own _ _ ihinner ih =>
    have hrun : s.run (.push frame :: (inner ++ .pop :: actions)) =
        (((s.push frame).run inner).act .pop).run actions := run_append (s.push frame) inner _
    have hcalls : (((s.push frame).run inner).act .pop).calls = s.calls := by
      rw [calls_act_pop, ihinner]
      rfl
    rw [hrun, ih, hcalls]

/-- What stands between a push and the end has made the pushed frame what it is. -/
lemma calls_run_pushed {before inner : List Action} {pushed : Frame} (h : Closed inner own)
    (s : Scopes) : (s.run (before ++ .push pushed :: inner)).calls =
      pushed.insertAll own :: (s.run before).calls := by
  rw [run_append]
  exact calls_run_closed h ((s.run before).push pushed)

/-- No call is active, or there is a last push that is not matched. -/
lemma calls_run_cases (g : Frame) (actions : List Action) :
    ((ofGlobal g).run actions).calls = [] ∨ ∃ before pushed inner own,
      actions = before ++ .push pushed :: inner ∧ Closed inner own := by
  induction hn : actions.length using Nat.strongRecOn generalizing actions with
  | ind n ih =>
    subst hn
    rcases List.eq_nil_or_concat' actions with rfl | ⟨actions, action, rfl⟩
    · exact Or.inl rfl
    have hactions := ih actions.length (by simp) actions rfl
    cases action with
    | push frame => exact Or.inr ⟨actions, frame, [], [], rfl, .nil⟩
    | define reach name value =>
      rcases hactions with hnil | ⟨before, pushed, inner, own, rfl, hinner⟩
      · refine Or.inl (List.length_eq_zero_iff.mp ?_)
        rw [run_append]
        exact (length_calls_define _ reach name value).trans (by rw [hnil, List.length_nil])
      · refine Or.inr ⟨before, pushed, inner ++ [.define reach name value], ?_⟩
        cases reach with
        | outermost => exact ⟨_, by simp, hinner.append (.outermost .nil)⟩
        | innermost => exact ⟨_, by simp, hinner.append (.innermost .nil)⟩
    | pop =>
      have hpop : ((ofGlobal g).run (actions ++ [.pop])).calls =
          ((ofGlobal g).run actions).calls.tail := by
        rw [run_append]
        exact calls_act_pop _
      rcases hactions with hnil | ⟨before, pushed, inner, own, rfl, hinner⟩
      · exact Or.inl (by rw [hpop, hnil, List.tail_nil])
      · -- the pop matches the last push, and what stands before that decides
        rw [calls_run_pushed hinner, List.tail_cons] at hpop
        have hclosed : Closed (.push pushed :: (inner ++ [.pop])) [] := .call hinner .nil
        rcases ih before.length (by simp) before rfl with
          hnil | ⟨before, outer, inner', own', rfl, hinner'⟩
        · exact Or.inl (by rw [hpop, hnil])
        · exact Or.inr ⟨before, outer, _, _, by simp, hinner'.append hclosed⟩

/-! ### Pops and lookups -/

lemma pop?_eq_none_iff : s.pop? = none ↔ s.depth = 1 := by
  obtain ⟨_ | ⟨frame, rest⟩, global⟩ := s <;> simp [pop?, depth]

lemma pop?_eq_some_iff {frame : Frame} {t : Scopes} : s.pop? = some (frame, t) ↔
    s.calls = frame :: t.calls ∧ t.global = s.global := by
  obtain ⟨_ | ⟨top, rest⟩, global⟩ := s
  · simp [pop?]
  · obtain ⟨calls, global'⟩ := t
    simp only [pop?, Option.some.injEq, Prod.mk.injEq, mk.injEq, List.cons.injEq]
    exact ⟨fun ⟨hframe, hcalls, hglobal⟩ => ⟨⟨hframe, hcalls⟩, hglobal.symm⟩,
      fun ⟨⟨hframe, hcalls⟩, hglobal⟩ => ⟨hframe, hcalls, hglobal.symm⟩⟩

/-- A pop answers the frame of the last push that is not matched, with its own definitions. -/
lemma pop?_run_iff {g frame : Frame} {t : Scopes} :
    ((ofGlobal g).run actions).pop? = some (frame, t) ↔ ∃ before pushed inner own,
      actions = before ++ .push pushed :: inner ∧ Closed inner own ∧
      frame = pushed.insertAll own ∧
      t = ⟨((ofGlobal g).run before).calls, ((ofGlobal g).run actions).global⟩ := by
  rw [pop?_eq_some_iff]
  constructor
  · rintro ⟨hcalls, hglobal⟩
    rcases calls_run_cases g actions with hnil | ⟨before, pushed, inner, own, rfl, hinner⟩
    · rw [hnil] at hcalls
      cases hcalls
    · rw [calls_run_pushed hinner, List.cons.injEq] at hcalls
      obtain ⟨calls, global⟩ := t
      obtain ⟨rfl, rfl⟩ := hcalls
      obtain rfl := hglobal
      exact ⟨before, pushed, inner, own, rfl, hinner, rfl, rfl⟩
  · rintro ⟨before, pushed, inner, own, rfl, hinner, rfl, rfl⟩
    exact ⟨calls_run_pushed hinner _, rfl⟩

/-- **Frames keep their own history.** Whatever has been pushed, popped and defined over a global
frame, the global frame is there, and a pop is refused if it is the only one and changes nothing
then. Otherwise the pop answers the frame of the push that it matches, with the definitions made
while that was the innermost frame, and leaves the calls as they were before the push. A name is
looked up in the innermost frame that binds it. The global frame has all definitions that reach it
and no others. -/
theorem frames_keep_their_history (g : Frame) (actions : List Action) :
    let s := (ofGlobal g).run actions
    (s.frames = s.calls ++ [s.global] ∧ s.depth = s.frames.length ∧ s.frames ≠ []) ∧
    (s.pop? = none ↔ s.depth = 1) ∧ (s.depth = 1 → s.act .pop = s) ∧
    (∀ frame t, s.pop? = some (frame, t) ↔ ∃ before pushed inner own,
      actions = before ++ .push pushed :: inner ∧ Closed inner own ∧
      frame = pushed.insertAll own ∧ t = ⟨((ofGlobal g).run before).calls, s.global⟩) ∧
    (∀ name value, s.find? name = some value ↔ ∃ inner frame outer,
      s.frames = inner ++ frame :: outer ∧ frame.get? name = some value ∧
      ∀ f ∈ inner, f.get? name = none) ∧
    (∀ name, s.find? name = none ↔ ∀ f ∈ s.frames, f.get? name = none) ∧
    s.global = g.insertAll (globalDefinitions 0 actions) := by
  intro s
  refine ⟨⟨rfl, by simp [depth, frames], by simp [frames]⟩, pop?_eq_none_iff, fun hdepth => ?_,
    fun frame t => pop?_run_iff, fun name value => ?_, fun name => ?_,
    global_run (ofGlobal g) actions⟩
  · rw [act, pop?_eq_none_iff.mpr hdepth]
  · rw [find?_eq_findSome?, List.findSome?_eq_some_iff]
  · rw [find?_eq_findSome?, List.findSome?_eq_none_iff]

/-- A call within a call defines a global name. The frame of the outer call keeps its own
definitions, and after its pop there is nothing left to pop. -/
theorem frames_keep_their_history_nested :
    let pushed : Frame := .ofList [("a", .number 1)]
    let inner : List Action := [.define .innermost "b" (.number 2), .push .empty,
      .define .outermost "c" (.number 3), .define .innermost "b" (.number 4), .pop,
      .define .innermost "a" (.number 5)]
    let s := (ofGlobal .empty).run (.push pushed :: inner)
    let t := (ofGlobal .empty).run (.push pushed :: inner ++ [.pop])
    Closed inner [("b", .number 2), ("a", .number 5)] ∧
      s.pop? = some (.ofList [("a", .number 5), ("b", .number 2)], ⟨[], s.global⟩) ∧
      t.depth = 1 ∧ t.act .pop = t ∧ t.global = .ofList [("c", .number 3)] := by
  intro pushed inner s t
  have hinner : Closed inner [("b", .number 2), ("a", .number 5)] :=
    .innermost (.call (.outermost (.innermost .nil)) (.innermost .nil))
  have hs := frames_keep_their_history .empty (.push pushed :: inner)
  have ht := frames_keep_their_history .empty (.push pushed :: inner ++ [.pop])
  have hdepth : t.depth = 1 := by decide
  refine ⟨hinner, (hs.2.2.2.1 _ _).mpr ⟨[], pushed, inner, _, rfl, hinner, ?_, rfl⟩, hdepth,
    ht.2.2.1 hdepth, ht.2.2.2.2.2.2.trans ?_⟩ <;> decide

end BraceLisp.Scopes
