import BraceLisp.Evaluator.Eval
import BraceLisp.Proofs.Arguments
import BraceLisp.Proofs.Occurrence

/-!
Properties that last.

An evaluation takes values apart, puts them together and binds them, but it makes few of its own:
numbers, lists, closures over bindings, and errors. A property of single values that these have
lasts: if it holds throughout what is bound and what is evaluated, it holds throughout the answer
and throughout what is bound then. What is bound is settled, and so is every answer that is not
an error (`evalWithin_sound`).
-/

namespace BraceLisp

namespace Value

/-- A value that can be bound: it is not an error, and it evaluates to itself. -/
def Settled : Value → Prop
  | symbol _ => False
  | error _ => False
  | sexpr cells => cells = []
  | _ => True

/-- A property that the values an evaluation makes have. Errors repeat nothing from a program
except the names of unbound symbols, and closures are made of symbols and of what was bound. -/
structure Lasting (P : Value → Prop) : Prop where
  number (n : Int64) : P (number n)
  builtin (b : Builtin) : P (builtin b)
  sexpr (cells : List Value) : P (sexpr cells)
  qexpr (cells : List Value) : P (qexpr cells)
  error (e : EvalError) (h : e.Plain) : P e.toValue
  unbound (name : String) (h : P (symbol name)) : P (EvalError.unbound name).toValue
  closure (formals : List String) (body : List Value) (captured : Frame) :
    P (closure formals body captured) ↔
      (∀ f ∈ formals, P (symbol f)) ∧ ∀ b ∈ captured.entries, b.2.Settled

/-- Settled, and of the property throughout. -/
def Bindable (P : Value → Prop) (v : Value) : Prop := v.Settled ∧ v.All P

/-- Settled or an error, and of the property throughout. -/
def IsAnswer (P : Value → Prop) (v : Value) : Prop := (v.isError = true ∨ v.Settled) ∧ v.All P

variable {P : Value → Prop}

lemma Bindable.isAnswer {v : Value} (h : v.Bindable P) : v.IsAnswer P := ⟨Or.inr h.1, h.2⟩

lemma IsAnswer.bindable {v : Value} (h : v.IsAnswer P) (hok : v.isError = false) :
    v.Bindable P := by
  refine ⟨h.1.resolve_left ?_, h.2⟩
  rw [hok]
  exact Bool.false_ne_true

lemma isAnswer_of_plain (hP : Lasting P) {e : EvalError} (he : e.Plain) : e.toValue.IsAnswer P :=
  ⟨Or.inl rfl, all_error.mpr (hP.error e he)⟩

lemma Bindable.qexpr (hP : Lasting P) {cells : List Value} (h : ∀ c ∈ cells, c.All P) :
    (Value.qexpr cells).Bindable P :=
  ⟨trivial, all_qexpr.mpr ⟨hP.qexpr cells, h⟩⟩

lemma Bindable.cells {cells : List Value} (h : (Value.qexpr cells).Bindable P) :
    ∀ c ∈ cells, c.All P :=
  (all_qexpr.mp h.2).2

end Value

/-- Everything that the frame binds is settled, and of the property throughout. -/
def Environment.Holds (P : Value → Prop) (frame : Frame) : Prop :=
  ∀ b ∈ frame.entries, b.2.Bindable P

open Value

variable {P : Value → Prop}

lemma Environment.Holds.insert {frame : Frame} {name : String} {v : Value} (h : frame.Holds P)
    (hv : v.Bindable P) : (frame.insert name v).Holds P := by
  intro b hb
  rcases mem_entries_insert hb with rfl | hb
  · exact hv
  · exact h b hb

/-! ### What functions make of their arguments -/

/-- What an effect still has to do keeps to what is bound. -/
def Effect.Sound (P : Value → Prop) : Effect → Prop
  | answer v => v.IsAnswer P
  | define _ bindings => ∀ b ∈ bindings, b.2.Bindable P
  | evaluate cells => ∀ c ∈ cells, c.All P
  | enter frame body => frame.Holds P ∧ ∀ c ∈ body, c.All P

/-- An outcome is sound if its effect is, or its error is one of the arguments. -/
def SoundOutcome (P : Value → Prop) (r : Except EvalError Effect) : Prop :=
  Refuses r ∧ ∀ x, r = .ok x → x.Sound P

lemma bindFormals_sound (hP : Lasting P) {formals rest : List String} {args : List Value}
    {env frame : Frame} (henv : env.Holds P) (hargs : ∀ a ∈ args, a.Bindable P)
    (h : bindFormals formals args env = .ok (rest, frame)) :
    frame.Holds P ∧ ∀ f ∈ rest, f ∈ formals := by
  induction formals generalizing args env with
  | nil =>
    cases args with
    | nil => cases h; exact ⟨henv, fun _ hf => hf⟩
    | cons a args => cases h
  | cons f fs ih =>
    by_cases hf : f = variadicMark
    · rw [hf, bindFormals_mark] at h
      split at h
      · cases h
        exact ⟨henv.insert (.qexpr hP fun a ha => (hargs a ha).2), by simp⟩
      · cases h
    · cases args with
      | nil =>
        rw [bindFormals_cons_nil hf] at h
        cases h
        exact ⟨henv, fun _ hg => hg⟩
      | cons a args =>
        rw [bindFormals_cons_cons hf] at h
        obtain ⟨hframe, hrest⟩ := ih (henv.insert (hargs a List.mem_cons_self))
          (fun a' ha' => hargs a' (List.mem_cons_of_mem _ ha')) h
        exact ⟨hframe, fun g hg => List.mem_cons_of_mem _ (hrest g hg)⟩

lemma closureEffect_sound (hP : Lasting P) {formals : List String} {body : List Value}
    {captured : Frame} {args : List Value} (hc : (Value.closure formals body captured).All P)
    (hargs : ∀ a ∈ args, a.Bindable P) :
    SoundOutcome P (closureEffect formals body captured args) := by
  obtain ⟨hself, hbody, hcaptured⟩ := all_closure.mp hc
  obtain ⟨hformals, hsettled⟩ := (hP.closure _ _ _).mp hself
  have hframe : captured.Holds P := fun b hb => ⟨hsettled b hb, hcaptured b hb⟩
  unfold closureEffect
  rcases h : bindFormals formals args captured with e | ⟨_ | ⟨f, fs⟩, frame⟩
  · exact ⟨.error (bindFormals_refuses _ _ _ e h), fun _ hx => nomatch hx⟩
  · refine ⟨.ok _, ?_⟩
    rintro _ ⟨⟩
    exact ⟨(bindFormals_sound hP hframe hargs h).1, hbody⟩
  · refine ⟨.ok _, ?_⟩
    rintro _ ⟨⟩
    obtain ⟨hframe', hrest⟩ := bindFormals_sound hP hframe hargs h
    refine Bindable.isAnswer ⟨trivial, all_closure.mpr ⟨(hP.closure _ _ _).mpr ⟨?_, ?_⟩, hbody, ?_⟩⟩
    · exact fun g hg => hformals g (hrest g hg)
    · exact fun b hb => (hframe' b hb).1
    · exact fun b hb => (hframe' b hb).2

lemma builtinEffect_sound (hP : Lasting P) {b : Builtin} {args : List Value}
    (hargs : ∀ a ∈ args, a.Bindable P) : SoundOutcome P (b.effect args) := by
  refine ⟨b.effect_refuses args, fun x hx => ?_⟩
  cases b with
  | list =>
    cases hx
    exact (Bindable.qexpr hP fun a ha => (hargs a ha).2).isAnswer
  | head =>
    simp only [Builtin.effect, bind_eq_ok, Builtin.oneArgument_ok, Prod.exists,
      Builtin.nonEmptyArgument_ok] at hx
    obtain ⟨_, rfl, first, rest, rfl, hx⟩ := hx
    cases hx
    have hcells := (hargs _ List.mem_cons_self).cells
    exact (Bindable.qexpr hP (by simpa using hcells first List.mem_cons_self)).isAnswer
  | tail =>
    simp only [Builtin.effect, bind_eq_ok, Builtin.oneArgument_ok, Prod.exists,
      Builtin.nonEmptyArgument_ok] at hx
    obtain ⟨_, rfl, first, rest, rfl, hx⟩ := hx
    cases hx
    have hcells := (hargs _ List.mem_cons_self).cells
    exact (Bindable.qexpr hP fun c hc => hcells c (List.mem_cons_of_mem _ hc)).isAnswer
  | join =>
    simp only [Builtin.effect, bind_eq_ok, Builtin.listArguments_ok] at hx
    obtain ⟨lists, rfl, hx⟩ := hx
    cases hx
    refine (Bindable.qexpr hP fun c hc => ?_).isAnswer
    obtain ⟨cells, hcells, hc⟩ := List.mem_flatten.mp hc
    exact (hargs _ (List.mem_map_of_mem hcells)).cells c hc
  | eval =>
    simp only [Builtin.effect, bind_eq_ok, Builtin.oneArgument_ok, Builtin.listArgument_ok] at hx
    obtain ⟨_, rfl, cells, rfl, hx⟩ := hx
    cases hx
    exact (hargs _ List.mem_cons_self).cells
  | define reach =>
    simp only [Builtin.effect, bind_eq_ok, Builtin.definitions_ok] at hx
    obtain ⟨bindings, ⟨names, values, rfl, -, rfl⟩, hx⟩ := hx
    cases hx
    exact fun b hb => hargs _ (List.mem_cons_of_mem _ (List.of_mem_zip hb).2)
  | lambda =>
    simp only [Builtin.effect, bind_eq_ok, Builtin.makeClosure_ok] at hx
    obtain ⟨_, ⟨formals, body, rfl, rfl⟩, hx⟩ := hx
    cases hx
    have hformals := (hargs _ List.mem_cons_self).cells
    have hbody := (hargs (.qexpr body) (by simp)).cells
    refine Bindable.isAnswer ⟨trivial, all_closure.mpr ⟨(hP.closure _ _ _).mpr ⟨?_, ?_⟩, hbody, ?_⟩⟩
    · exact fun f hf => (hformals _ (List.mem_map_of_mem hf)).self
    · simp [Environment.empty]
    · simp [Environment.empty]
  | arithmetic op =>
    simp only [Builtin.effect, bind_eq_ok] at hx
    obtain ⟨v, hv, hx⟩ := hx
    cases hx
    obtain ⟨n, rfl⟩ := Builtin.compute_ok hv
    exact Bindable.isAnswer ⟨trivial, all_number.mpr (hP.number n)⟩

lemma effect_sound (hP : Lasting P) {f : Value} {args : List Value} (hf : f.Bindable P)
    (hargs : ∀ a ∈ args, a.Bindable P) : SoundOutcome P (f.effect args) := by
  cases f with
  | builtin b => exact builtinEffect_sound hP hargs
  | closure formals body captured => exact closureEffect_sound hP hf.2 hargs
  | _ => exact ⟨.error trivial, fun _ h => nomatch h⟩

lemma reduction_sound (hP : Lasting P) {vs : List Value} (hvs : ∀ v ∈ vs, v.Bindable P) :
    SoundOutcome P (Value.reduction vs) := by
  match vs, hvs with
  | [], _ =>
    refine ⟨.ok _, ?_⟩
    rintro _ ⟨⟩
    exact Bindable.isAnswer ⟨rfl, all_sexpr.mpr ⟨hP.sexpr [], by simp⟩⟩
  | [v], hvs =>
    refine ⟨.ok _, ?_⟩
    rintro _ ⟨⟩
    exact (hvs v List.mem_cons_self).isAnswer
  | f :: a :: args, hvs =>
    exact effect_sound hP (hvs f List.mem_cons_self) fun v hv => hvs v (List.mem_cons_of_mem _ hv)

/-! ### Scopes -/

namespace Scopes

/-- Every frame binds what is settled and of the property throughout. -/
def Holds (P : Value → Prop) (s : Scopes) : Prop := ∀ frame ∈ s.frames, frame.Holds P

lemma holds_iff {s : Scopes} :
    s.Holds P ↔ (∀ frame ∈ s.calls, frame.Holds P) ∧ s.global.Holds P := by
  simp [Holds, frames, or_imp, forall_and]

lemma Holds.push {s : Scopes} {frame : Frame} (h : s.Holds P) (hframe : frame.Holds P) :
    (s.push frame).Holds P := by
  obtain ⟨hcalls, hglobal⟩ := holds_iff.mp h
  refine holds_iff.mpr ⟨fun f hf => ?_, hglobal⟩
  rcases List.mem_cons.mp hf with rfl | hf
  · exact hframe
  · exact hcalls f hf

lemma Holds.leave {s : Scopes} (h : s.Holds P) : s.leave.Holds P := by
  obtain ⟨hcalls, hglobal⟩ := holds_iff.mp h
  exact holds_iff.mpr ⟨fun f hf => hcalls f (List.mem_of_mem_tail hf), hglobal⟩

lemma Holds.defineGlobal {s : Scopes} {name : String} {v : Value} (h : s.Holds P)
    (hv : v.Bindable P) : (s.defineGlobal name v).Holds P := by
  obtain ⟨hcalls, hglobal⟩ := holds_iff.mp h
  exact holds_iff.mpr ⟨hcalls, hglobal.insert hv⟩

lemma Holds.define {s : Scopes} {reach : Reach} {name : String} {v : Value} (h : s.Holds P)
    (hv : v.Bindable P) : (s.define reach name v).Holds P := by
  cases reach with
  | outermost => exact h.defineGlobal hv
  | innermost =>
    obtain ⟨_ | ⟨frame, rest⟩, global⟩ := s
    · exact h.defineGlobal hv
    · obtain ⟨hcalls, hglobal⟩ := holds_iff.mp h
      refine holds_iff.mpr ⟨fun f hf => ?_, hglobal⟩
      rcases List.mem_cons.mp hf with rfl | hf
      · exact (hcalls frame List.mem_cons_self).insert hv
      · exact hcalls f (List.mem_cons_of_mem _ hf)

lemma Holds.defineAll {s : Scopes} {reach : Reach} {bindings : List (String × Value)}
    (h : s.Holds P) (hb : ∀ b ∈ bindings, b.2.Bindable P) :
    (s.defineAll reach bindings).Holds P := by
  induction bindings generalizing s with
  | nil => exact h
  | cons b rest ih =>
    exact ih (h.define (hb b List.mem_cons_self)) fun d hd => hb d (List.mem_cons_of_mem _ hd)

lemma Holds.find? {s : Scopes} {name : String} {v : Value} (h : s.Holds P)
    (hv : s.find? name = some v) : v.Bindable P := by
  rw [find?_eq_findSome?] at hv
  obtain ⟨frame, hframe, hget⟩ := List.exists_of_findSome?_eq_some hv
  exact h frame hframe _ (Environment.mem_entries_of_get? hget)

end Scopes

/-! ### Evaluation -/

namespace Evaluator

variable {eval : Evaluation}

/-- An evaluation of what has the property throughout, where the scopes hold it. -/
def Sound (P : Value → Prop) (eval : Evaluation) : Prop :=
  ∀ m v, m.scopes.Holds P → v.All P → (eval m v).2.scopes.Holds P ∧ (eval m v).1.IsAnswer P

lemma lookup_isAnswer (hP : Lasting P) {m : Evaluator} {name : String} (hm : m.scopes.Holds P)
    (hname : P (.symbol name)) : (m.lookup name).IsAnswer P := by
  unfold lookup
  rcases h : m.scopes.find? name with _ | v
  · exact ⟨Or.inl rfl, all_error.mpr (hP.unbound name hname)⟩
  · exact (hm.find? h).isAnswer

lemma perform_sound (hP : Lasting P) (h : Sound P eval) {m : Evaluator} {x : Effect}
    (hm : m.scopes.Holds P) (hx : x.Sound P) :
    (perform eval m x).2.scopes.Holds P ∧ (perform eval m x).1.IsAnswer P := by
  cases x with
  | answer v => exact ⟨hm, hx⟩
  | define reach bindings =>
    exact ⟨hm.defineAll hx, Or.inr rfl, all_sexpr.mpr ⟨hP.sexpr [], by simp⟩⟩
  | evaluate cells => exact h m _ hm (all_sexpr.mpr ⟨hP.sexpr cells, hx⟩)
  | enter frame body =>
    obtain ⟨hscopes, hanswer⟩ := h { m with scopes := m.scopes.push frame } (.sexpr body)
      (hm.push hx.1) (all_sexpr.mpr ⟨hP.sexpr body, hx.2⟩)
    exact ⟨hscopes.leave, hanswer⟩

lemma performWith_sound (hP : Lasting P) (h : Sound P eval) {m : Evaluator}
    {r : Except EvalError Effect} (hm : m.scopes.Holds P) (hr : SoundOutcome P r) :
    (performWith eval m r).2.scopes.Holds P ∧ (performWith eval m r).1.IsAnswer P := by
  cases r with
  | error e => exact ⟨hm, isAnswer_of_plain hP (hr.1 e rfl).plain⟩
  | ok x => exact perform_sound hP h hm (hr.2 x rfl)

/-- The cells come to what can be bound, or to the message of an error. -/
lemma evalCells_sound (h : Sound P eval) {m : Evaluator} {cells : List Value}
    (hm : m.scopes.Holds P) (hcells : ∀ c ∈ cells, c.All P) :
    (evalCells eval m cells).2.scopes.Holds P ∧
      (∀ message, (evalCells eval m cells).1 = .error message → P (.error message)) ∧
      ∀ vs, (evalCells eval m cells).1 = .ok vs → ∀ v ∈ vs, v.Bindable P := by
  induction cells generalizing m with
  | nil =>
    refine ⟨hm, fun _ h => (nomatch h), ?_⟩
    rintro _ ⟨⟩
    simp
  | cons cell cells ih =>
    obtain ⟨hscopes, hanswer⟩ := h m cell hm (hcells cell List.mem_cons_self)
    rcases (eval m cell).1.error_or_not with ⟨message, herr⟩ | hok
    · rw [evalCells_cons_error cells herr]
      refine ⟨hscopes, ?_, fun _ h => nomatch h⟩
      rintro _ ⟨⟩
      rw [herr] at hanswer
      exact hanswer.2.self
    · obtain ⟨hlast, hmessage, hvs⟩ := ih hscopes fun c hc => hcells c (List.mem_cons_of_mem _ hc)
      rw [evalCells_cons_ok cells hok]
      rcases hrest : evalCells eval (eval m cell).2 cells with ⟨message | ws, n⟩ <;>
        rw [hrest] at hlast hmessage hvs
      · refine ⟨hlast, ?_, fun _ h => nomatch h⟩
        rintro _ ⟨⟩
        exact hmessage message rfl
      · refine ⟨hlast, fun _ h => (nomatch h), ?_⟩
        rintro _ ⟨⟩ v hv
        rcases List.mem_cons.mp hv with rfl | hv
        · exact hanswer.bindable hok
        · exact hvs ws rfl v hv

lemma evalOnce_sound (hP : Lasting P) (h : Sound P eval) : Sound P (evalOnce eval) := by
  intro m v hm hv
  cases v with
  | symbol name => exact ⟨hm, lookup_isAnswer hP hm hv.self⟩
  | sexpr cells =>
    obtain ⟨hscopes, hmessage, hvs⟩ := evalCells_sound h hm (all_sexpr.mp hv).2
    rw [evalOnce]
    rcases hr : evalCells eval m cells with ⟨message | vs, n⟩ <;> rw [hr] at hscopes hmessage hvs
    · exact ⟨hscopes, Or.inl rfl, all_error.mpr (hmessage message rfl)⟩
    · exact performWith_sound hP h hscopes (reduction_sound hP (hvs vs rfl))
  | error message => exact ⟨hm, Or.inl rfl, hv⟩
  | _ => exact ⟨hm, Or.inr trivial, hv⟩

/-- **Lasting properties last.** -/
lemma evalWithin_sound (hP : Lasting P) (room : Nat) : Sound P (evalWithin room) := by
  induction room with
  | zero => exact fun m v hm _ => ⟨hm, isAnswer_of_plain hP trivial⟩
  | succ room ih =>
    intro m v hm hv
    rw [evalWithin_succ]
    exact evalOnce_sound hP ih { m with depth := m.depth + 1 } v hm hv

lemma eval_sound (hP : Lasting P) {m : Evaluator} {v : Value} (hm : m.scopes.Holds P)
    (hv : v.All P) : (m.eval v).2.scopes.Holds P ∧ (m.eval v).1.IsAnswer P :=
  evalWithin_sound hP m.room m v hm hv

end Evaluator

end BraceLisp
