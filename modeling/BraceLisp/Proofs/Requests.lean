import BraceLisp.Session
import Mathlib.Tactic.Lemma

/-!
A host that asks a session for one thing after another.

The session replies to each request before it takes the next. What every request keeps holds of
the session after any number of them (`run_induction`).
-/

namespace BraceLisp

/-- What a host asks a session for. -/
inductive Request where
  | evalSource (source : String)
  | evalTree (t : Tree)
  | evalValue (v : Value)
  | define (name : String) (v : Value)

/-- What a session replies. -/
inductive Reply where
  | value (v : Value)
  | defined
  | refused (e : SessionError)

namespace Session

def perform (s : Session) : Request → Reply × Session
  | .evalSource source =>
    match s.evalSource source with
    | (.ok v, s) => (.value v, s)
    | (.error e, s) => (.refused (.parse e), s)
  | .evalTree t =>
    let (v, s) := s.evalTree t
    (.value v, s)
  | .evalValue v =>
    let (v, s) := s.evalValue v
    (.value v, s)
  | .define name v =>
    match s.define name v with
    | .ok s => (.defined, s)
    | .error e => (.refused e, s)

/-- The replies to requests made one after another, and the session after the last of them. -/
def run (s : Session) : List Request → List Reply × Session
  | [] => ([], s)
  | r :: rs =>
    let (reply, s) := s.perform r
    let (replies, s) := s.run rs
    (reply :: replies, s)

@[simp] lemma run_nil (s : Session) : s.run [] = ([], s) := rfl

lemma run_cons (s : Session) (r : Request) (rs : List Request) :
    s.run (r :: rs) =
      ((s.perform r).1 :: ((s.perform r).2.run rs).1, ((s.perform r).2.run rs).2) := rfl

/-- A request does one of three things: it evaluates a value, it binds a name, or it is refused
and changes nothing. -/
lemma perform_cases (s : Session) (r : Request) :
    (∃ v, (r = .evalValue v ∨ (∃ t, r = .evalTree t ∧ v = .ofTree t) ∨
          ∃ source t, r = .evalSource source ∧ v = .ofTree t) ∧
        s.perform r = (.value (s.evalValue v).1, (s.evalValue v).2)) ∨
      (∃ name v, r = .define name v ∧ s.perform r = (.defined, { s with evaluator :=
        { s.evaluator with scopes := s.evaluator.scopes.defineGlobal name v } })) ∨
      ∃ e, s.perform r = (.refused e, s) := by
  cases r with
  | evalSource source =>
    cases h : Tree.parse source s.nesting with
    | error e => exact Or.inr (Or.inr ⟨.parse e, by simp [perform, evalSource, h]⟩)
    | ok t =>
      refine Or.inl ⟨.ofTree t, Or.inr (Or.inr ⟨source, t, rfl, rfl⟩), ?_⟩
      simp [perform, evalSource, h, evalTree]
  | evalTree t => exact Or.inl ⟨.ofTree t, Or.inr (Or.inl ⟨t, rfl, rfl⟩), rfl⟩
  | evalValue v => exact Or.inl ⟨v, Or.inl rfl, rfl⟩
  | define name v =>
    by_cases h : name.isEmpty
    · refine Or.inr (Or.inr ⟨.misuse "cannot define an empty name", ?_⟩)
      simp [perform, Session.define, h]
    · exact Or.inr (Or.inl ⟨name, v, rfl, by simp [perform, Session.define, h]⟩)

/-- What every request keeps holds after a run, and what it makes true of its reply holds of
every reply. -/
lemma run_induction {I : Session → Prop} {P : Request → Prop} {Q : Reply → Prop}
    (hstep : ∀ s r, I s → P r → I (s.perform r).2 ∧ Q (s.perform r).1) {s : Session}
    {rs : List Request} (hs : I s) (hrs : ∀ r ∈ rs, P r) :
    I (s.run rs).2 ∧ ∀ reply ∈ (s.run rs).1, Q reply := by
  induction rs generalizing s with
  | nil => exact ⟨hs, by simp⟩
  | cons r rs ih =>
    obtain ⟨hI, hQ⟩ := hstep s r hs (hrs r List.mem_cons_self)
    obtain ⟨hlast, hreplies⟩ := ih hI fun q hq => hrs q (List.mem_cons_of_mem _ hq)
    rw [run_cons]
    refine ⟨hlast, fun reply hreply => ?_⟩
    rcases List.mem_cons.mp hreply with rfl | hmem
    · exact hQ
    · exact hreplies reply hmem

end Session

end BraceLisp
