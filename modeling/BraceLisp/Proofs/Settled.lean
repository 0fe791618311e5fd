import BraceLisp.Proofs.Lasting
import BraceLisp.Proofs.Nested

/-!
Answers are settled.

Whatever a host asks of a session, as long as it hands in no closures of its own and binds
nothing but settled values, what is bound stays settled: in the global frame and in all that
closures have captured, however deep they stand. Every answer is settled or an error, and
evaluating it again changes nothing (`answers_settle`).
-/

namespace BraceLisp

namespace Value

/-- A closure has captured settled values only. -/
def CapturesSettled : Value → Prop
  | closure _ _ captured => ∀ b ∈ captured.entries, b.2.Settled
  | _ => True

lemma lasting_capturesSettled : Lasting CapturesSettled where
  number _ := trivial
  builtin _ := trivial
  sexpr _ := trivial
  qexpr _ := trivial
  error _ _ := trivial
  unbound _ _ := trivial
  closure formals body captured := by simp [CapturesSettled]

lemma ClosureFree.capturesSettled {v : Value} (h : v.ClosureFree) : v.All CapturesSettled := by
  refine h.mono fun w hw => ?_
  cases w with
  | closure formals body captured => cases hw
  | _ => trivial

lemma ofNumeral_closureFree (text : Option String) : (ofNumeral text).ClosureFree := by
  unfold ofNumeral
  split
  · exact all_number.mpr rfl
  · exact all_error.mpr rfl

lemma ofSymbolText_closureFree (text : Option String) : (ofSymbolText text).ClosureFree := by
  cases text with
  | none => exact all_error.mpr rfl
  | some s => exact all_symbol.mpr rfl

mutual

/-- No syntax tree reads as a closure, or as anything with a closure in it. -/
lemma ofTree_closureFree : ∀ t : Tree, (ofTree t).ClosureFree
  | ⟨tag, text, children, span⟩ => by
    rw [ofTree]
    split
    · exact ofNumeral_closureFree text
    · split
      · exact ofSymbolText_closureFree text
      · split
        · exact all_sexpr.mpr ⟨rfl, ofTrees_closureFree children⟩
        · split
          · exact all_qexpr.mpr ⟨rfl, ofTrees_closureFree children⟩
          · exact all_error.mpr rfl

lemma ofTrees_closureFree : ∀ ts : List Tree, ∀ c ∈ ofTrees ts, c.ClosureFree
  | [], c, hc => by simp [ofTrees] at hc
  | t :: ts, c, hc => by
    rw [ofTrees] at hc
    split at hc
    · exact ofTrees_closureFree ts c hc
    · rcases List.mem_cons.mp hc with rfl | hc
      · exact ofTree_closureFree t
      · exact ofTrees_closureFree ts c hc

end

end Value

open Value

lemma Builtin.environment_holds (P : Value → Prop) (hP : Lasting P) :
    Builtin.environment.Holds P := by
  intro b hb
  rcases Environment.mem_entries_insertAll hb with hb | hb
  · obtain ⟨f, -, rfl⟩ := List.mem_map.mp hb
    exact ⟨trivial, all_builtin.mpr (hP.builtin f)⟩
  · simp [Environment.empty] at hb

namespace Evaluator

/-- With nothing bound but the builtins, what lasts holds. -/
lemma withBuiltins_holds {P : Value → Prop} (hP : Lasting P) (limit : Nat) :
    (withBuiltins limit).scopes.Holds P := by
  intro frame hframe
  have heq : frame = Builtin.environment := List.mem_singleton.mp hframe
  rw [heq]
  exact Builtin.environment_holds P hP

/-- Below the limit a settled value, like an error, evaluates to itself. -/
lemma eval_eq_self {m : Evaluator} {v : Value} (hm : m.depth < m.limit)
    (hv : v.isError = true ∨ v.Settled) : m.eval v = (v, m) := by
  have honce : evalOnce Evaluator.eval m.deeper v = (v, m.deeper) := by
    cases v with
    | symbol name => rcases hv with h | h <;> cases h
    | sexpr cells =>
      rcases hv with h | h
      · cases h
      · cases h; rfl
    | _ => rfl
  rw [eval_of_lt hm, honce]
  rfl

variable {P : Value → Prop} {eval : Evaluation} {m n : Evaluator} {v w : Value}

lemma GetsTo.holds (h : Sound P eval) {cells : List Value} (hm : m.scopes.Holds P)
    (hcells : ∀ c ∈ cells, c.All P) (hn : GetsTo eval m cells n w) :
    n.scopes.Holds P ∧ w.All P := by
  induction hn with
  | here m w cells => exact ⟨hm, hcells w List.mem_cons_self⟩
  | @next m cell cells n w hok hn ih =>
    exact ih (h m cell hm (hcells cell List.mem_cons_self)).1
      fun c hc => hcells c (List.mem_cons_of_mem _ hc)

lemma Begins.holds (hP : Lasting P) (h : Sound P eval) (hm : m.scopes.Holds P) (hv : v.All P)
    (hn : Begins eval m v n w) : n.scopes.Holds P ∧ w.All P := by
  cases hn with
  | cell hn => exact hn.holds h hm (all_sexpr.mp hv).2
  | reduction hcells hx hn =>
    obtain ⟨hk, -, hvs⟩ := evalCells_sound h hm (all_sexpr.mp hv).2
    rw [hcells] at hk hvs
    have hsound := (reduction_sound hP (hvs _ rfl)).2 _ hx
    cases hn with
    | evaluate cells => exact ⟨hk, all_sexpr.mpr ⟨hP.sexpr cells, hsound⟩⟩
    | enter frame body => exact ⟨hk.push hsound.1, all_sexpr.mpr ⟨hP.sexpr body, hsound.2⟩⟩

/-- What lasts holds in every evaluation within an evaluation. -/
lemma Contains.holds (hP : Lasting P) {p q : Evaluator × Value} (h : Contains p q)
    (hp : p.1.scopes.Holds P) (hv : p.2.All P) : q.1.scopes.Holds P ∧ q.2.All P := by
  induction h with
  | refl => exact ⟨hp, hv⟩
  | @tail b c _ hstep ih =>
    exact hstep.2.holds (m := b.1.deeper) hP (fun _ _ => eval_sound hP) ih.1 ih.2

/-- A symbol evaluates to an error exactly if it is unbound or the limit is met. -/
lemma isError_eval_symbol (hm : m.scopes.Holds P) (name : String) :
    (m.eval (.symbol name)).1.isError = true ↔
      m.scopes.find? name = none ∨ m.limit ≤ m.depth := by
  rcases Nat.lt_or_ge m.depth m.limit with hlt | hle
  · have heval : (m.eval (.symbol name)).1 =
        (m.scopes.find? name).getD (EvalError.unbound name).toValue := by
      rw [eval_of_lt hlt]
      rfl
    rw [heval]
    rcases hname : m.scopes.find? name with _ | v
    · simp [EvalError.toValue, isError, kind]
    · have hv : v.Settled := (hm.find? hname).1
      have hok : v.isError = false := by cases v <;> first | rfl | cases hv
      simp [hok]
      omega
  · rw [eval_of_limit_le hle]
    simp [hle, EvalError.toValue, isError, kind]

end Evaluator

/-- A request that hands in no closure, and binds nothing but a settled value. -/
def Request.HandsInData : Request → Prop
  | evalSource _ => True
  | evalTree _ => True
  | evalValue v => v.ClosureFree
  | define _ v => v.ClosureFree ∧ v.Settled

/-- The reply, if it is a value, is settled or an error; with no room at all it is the error of
the limit. -/
def Reply.Proper (depth : Nat) (r : Reply) : Prop :=
  ∀ v, r = .value v → v.IsAnswer CapturesSettled ∧
    (depth = 0 → v = (EvalError.tooDeep 0 0).toValue)

namespace Session

/-- The session is over its global frame alone, and what is bound is settled throughout. -/
def Orderly (depth : Nat) (s : Session) : Prop :=
  s.evaluator = .ofGlobal s.globals depth ∧ s.evaluator.scopes.Holds CapturesSettled

lemma orderly_init (depth nesting : Nat) : (init depth nesting).Orderly depth :=
  ⟨rfl, Evaluator.withBuiltins_holds lasting_capturesSettled depth⟩

lemma perform_orderly {depth : Nat} {s : Session} {r : Request} (hs : s.Orderly depth)
    (hr : r.HandsInData) : (s.perform r).2.Orderly depth ∧ (s.perform r).1.Proper depth := by
  have hbase := s.perform_eq_ofGlobal r depth hs.1
  rcases s.perform_cases r with ⟨v, hv, hperform⟩ | ⟨name, v, rfl, hperform⟩ | ⟨e, hperform⟩ <;>
    rw [hperform] at hbase ⊢
  · have hfree : v.ClosureFree := by
      rcases hv with rfl | ⟨t, rfl, rfl⟩ | ⟨source, t, rfl, rfl⟩
      · exact hr
      · exact ofTree_closureFree t
      · exact ofTree_closureFree t
    obtain ⟨hholds, hanswer⟩ :=
      Evaluator.eval_sound lasting_capturesSettled hs.2 hfree.capturesSettled
    refine ⟨⟨hbase, hholds⟩, ?_⟩
    rintro _ ⟨⟩
    refine ⟨hanswer, fun hdepth => ?_⟩
    simp only [evalValue, hs.1, hdepth]
    rfl
  · refine ⟨⟨hbase, hs.2.defineGlobal ⟨hr.2, hr.1.capturesSettled⟩⟩, ?_⟩
    rintro _ ⟨⟩
  · refine ⟨hs, ?_⟩
    rintro _ ⟨⟩

/-- An answer evaluates to itself, and the session is as before. -/
lemma Orderly.evalValue_answer {depth : Nat} {s : Session} (hs : s.Orderly depth) {v : Value}
    (hv : Reply.Proper depth (.value v)) : s.evalValue v = (v, s) := by
  obtain ⟨hanswer, hzero⟩ := hv v rfl
  have heval : s.evaluator.eval v = (v, s.evaluator) := by
    rcases Nat.eq_zero_or_pos depth with hdepth | hdepth
    · rw [hs.1, hdepth, hzero hdepth]
      rfl
    · refine Evaluator.eval_eq_self ?_ hanswer.1
      rw [hs.1]
      exact hdepth
  rw [evalValue, heval]

lemma Orderly.isError_evalValue_symbol {depth : Nat} {s : Session} (hs : s.Orderly depth)
    (name : String) :
    (s.evalValue (.symbol name)).1.isError = true ↔ s.lookup? name = none ∨ depth = 0 := by
  have hsymbol := Evaluator.isError_eval_symbol hs.2 name
  have hfind : s.evaluator.scopes.find? name = s.lookup? name := by rw [hs.1]; rfl
  have hlimit : s.evaluator.limit ≤ s.evaluator.depth ↔ depth = 0 := by
    rw [hs.1]
    exact Nat.le_zero
  rw [hfind, hlimit] at hsymbol
  exact hsymbol

end Session

/-- **Answers are settled.** A session that is handed no closures binds settled values only, in
its global frame and in whatever closures capture. Its answers are settled or errors; evaluating
one again gives it back and leaves the session as it is. A symbol is answered by an error exactly
if it is unbound or the limit is met, and so it is wherever one is evaluated within a program. -/
theorem answers_settle (depth nesting : Nat) (rs : List Request)
    (hrs : ∀ r ∈ rs, r.HandsInData) :
    let replies := ((Session.init depth nesting).run rs).1
    let s := ((Session.init depth nesting).run rs).2
    (∀ b ∈ s.globals.entries, b.2.Settled ∧ b.2.All CapturesSettled) ∧
    (∀ v, Reply.value v ∈ replies → (v.isError = true ∨ v.Settled) ∧ v.All CapturesSettled ∧
      s.evalValue v = (v, s)) ∧
    (∀ name, (s.evalValue (.symbol name)).1.isError = true ↔
      s.lookup? name = none ∨ depth = 0) ∧
    ∀ v n name, v.ClosureFree → Evaluator.Contains (s.evaluator, v) (n, .symbol name) →
      ((n.eval (.symbol name)).1.isError = true ↔
        n.scopes.find? name = none ∨ n.limit ≤ n.depth) := by
  intro replies s
  obtain ⟨hs, hreplies⟩ := Session.run_induction (I := Session.Orderly depth)
    (Q := Reply.Proper depth) (fun _ _ => Session.perform_orderly)
    (Session.orderly_init depth nesting) hrs
  refine ⟨fun b hb => ?_, fun v hv => ?_, hs.isError_evalValue_symbol, fun v n name hv hn => ?_⟩
  · exact hs.2 s.globals (by simp [Scopes.frames, Session.globals, s]) b hb
  · have hproper := hreplies _ hv
    exact ⟨(hproper v rfl).1.1, (hproper v rfl).1.2, hs.evalValue_answer hproper⟩
  · exact Evaluator.isError_eval_symbol
      (hn.holds lasting_capturesSettled hs.2 hv.capturesSettled).1 name

/-- A program defines a closure, the host binds a list, and the closure is answered. -/
theorem answers_settle_closure :
    let rs : List Request := [.evalSource "def \x7bk\x7d (\\ \x7bx\x7d \x7b+ x y\x7d)",
      .define "y" (.qexpr [.symbol "a"]), .evalValue (.symbol "k")]
    let replies := ((Session.init 8 8).run rs).1
    let s := ((Session.init 8 8).run rs).2
    (∀ r ∈ rs, r.HandsInData) ∧
    (s.evalValue (.symbol "k")).1 =
      .closure ["x"] [.symbol "+", .symbol "x", .symbol "y"] .empty ∧
    (∀ b ∈ s.globals.entries, b.2.Settled ∧ b.2.All CapturesSettled) ∧
    ∀ v, Reply.value v ∈ replies → (v.isError = true ∨ v.Settled) ∧ v.All CapturesSettled ∧
      s.evalValue v = (v, s) := by
  intro rs replies s
  have hrs : ∀ r ∈ rs, r.HandsInData := by
    simp [rs, Request.HandsInData, ClosureFree, isClosure, Settled]
  obtain ⟨hglobals, hreplies, -, -⟩ := answers_settle 8 8 rs hrs
  exact ⟨hrs, by decide +kernel, hglobals, hreplies⟩

end BraceLisp
