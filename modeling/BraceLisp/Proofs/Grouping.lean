import BraceLisp.Proofs.Tokens

/-!
Grouping tokens with a stack.

The tokens are read one after another (`Stack.feed`), and the stack keeps what an open group
stands in. Tokens that are grouped leave the stack with their forms on its level and nothing else
changed (`feedAll_of_groups`). Conversely a stack that is empty in the end has seen the closing
bracket of each group (`closes_of_feedAll`), so that no other tokens get through (`groups_iff`).
-/

namespace BraceLisp

/-- The forms of the innermost open group, the last one first, and the open groups, the innermost
first. -/
structure Stack where
  level : List Form
  groups : List OpenGroup

namespace Groups

variable {ts us : List Token.Placed} {fs gs : List Form}

lemma append (h : Groups ts fs) (h' : Groups us gs) : Groups (ts ++ us) (fs ++ gs) := by
  induction h with
  | nil => exact h'
  | word _ ih => exact .word ih
  | group hinner _ _ ih =>
    rw [List.cons_append, List.append_assoc, List.cons_append]
    exact .group hinner ih

end Groups

namespace Stack

/-- Reads a token. A closing bracket has to match the innermost open group. -/
def feed (s : Stack) (t : Token.Placed) : Option Stack :=
  match t.token with
  | .word cs => some { s with level := .word t.start cs :: s.level }
  | .opening b => some ⟨[], ⟨b, t.start, s.level⟩ :: s.groups⟩
  | .closing b =>
    match s.groups with
    | [] => none
    | g :: gs =>
      if b = g.kind then
        some ⟨.group b ⟨g.start, t.start + 1⟩ s.level.reverse :: g.before, gs⟩
      else none

def feedAll (s : Stack) : List Token.Placed → Option Stack
  | [] => some s
  | t :: ts => (s.feed t).bind fun s => s.feedAll ts

variable {s s' : Stack} {t : Token.Placed} {ts us : List Token.Placed} {fs : List Form}

lemma feedAll_cons_of_feed (h : s.feed t = some s') (ts : List Token.Placed) :
    s.feedAll (t :: ts) = s'.feedAll ts := by
  rw [feedAll, h, Option.bind_some]

lemma feed_closing {b : Bracket} {stop : Nat} :
    s.feed ⟨stop, .closing b⟩ = some s' ↔ ∃ start before gs, s.groups = ⟨b, start, before⟩ :: gs ∧
      s' = ⟨.group b ⟨start, stop + 1⟩ s.level.reverse :: before, gs⟩ := by
  constructor
  · intro h
    simp only [feed] at h
    split at h
    · cases h
    · next g gs hgroups =>
      split at h
      · next hkind =>
        cases h
        exact ⟨g.start, g.before, gs, by rw [hgroups, hkind], rfl⟩
      · cases h
  · rintro ⟨start, before, gs, hgroups, rfl⟩
    simp [feed, hgroups]

/-- Tokens that are grouped add their forms to the level and leave the open groups alone. -/
lemma feedAll_of_groups (h : Groups ts fs) (s : Stack) (us : List Token.Placed) :
    s.feedAll (ts ++ us) = feedAll { s with level := fs.reverse ++ s.level } us := by
  induction h generalizing s us with
  | nil => rfl
  | word _ ih =>
    rw [List.cons_append, feedAll_cons_of_feed rfl, ih]
    simp
  | @group b start stop inner ts ms fs _ _ ihinner ihrest =>
    have hclose : feed ⟨ms.reverse, ⟨b, start, s.level⟩ :: s.groups⟩ ⟨stop, .closing b⟩ =
        some { s with level := .group b ⟨start, stop + 1⟩ ms :: s.level } :=
      feed_closing.mpr ⟨start, s.level, s.groups, rfl, by rw [List.reverse_reverse]⟩
    rw [List.cons_append, List.append_assoc, feedAll_cons_of_feed rfl, ihinner, List.append_nil,
      List.cons_append, feedAll_cons_of_feed hclose, ihrest]
    simp

/-- The tokens close the open groups, one after another, and `done` is the level in the end. -/
def Closes (done level : List Form) : List OpenGroup → List Token.Placed → Prop
  | [], ts => ∃ fs, Groups ts fs ∧ done = fs.reverse ++ level
  | g :: gs, ts => ∃ inner ms stop us, ts = inner ++ ⟨stop, .closing g.kind⟩ :: us ∧
      Groups inner ms ∧
      Closes done (.group g.kind ⟨g.start, stop + 1⟩ (level.reverse ++ ms) :: g.before) gs us

/-- Forms that are complete may be read before the groups are closed. -/
lemma Closes.after {done level : List Form} {gs : List OpenGroup}
    (h : Closes done (fs.reverse ++ level) gs us) (hts : Groups ts fs) :
    Closes done level gs (ts ++ us) := by
  cases gs with
  | nil =>
    obtain ⟨rest, hus, rfl⟩ := h
    exact ⟨fs ++ rest, hts.append hus, by simp⟩
  | cons g gs =>
    obtain ⟨inner, ms, stop, vs, rfl, hinner, hrest⟩ := h
    refine ⟨ts ++ inner, fs ++ ms, stop, vs, by simp, hts.append hinner, ?_⟩
    simpa using hrest

/-- What tokens have done that left no group open. -/
lemma closes_of_feedAll {done : List Form} (h : s.feedAll ts = some ⟨done, []⟩) :
    Closes done s.level s.groups ts := by
  induction ts generalizing s with
  | nil =>
    cases h
    exact ⟨[], .nil, rfl⟩
  | cons t ts ih =>
    obtain ⟨start, token⟩ := t
    obtain ⟨s', hfeed, hts⟩ := Option.bind_eq_some_iff.mp h
    have hs' := ih hts
    cases token with
    | word cs =>
      cases hfeed
      have hword : Groups [⟨start, .word cs⟩] [.word start cs] := .word .nil
      exact hs'.after hword
    | opening b =>
      cases hfeed
      obtain ⟨inner, ms, stop, us, rfl, hinner, hrest⟩ := hs'
      have hgroup : Groups (⟨start, .opening b⟩ :: (inner ++ [⟨stop, .closing b⟩]))
          [.group b ⟨start, stop + 1⟩ ms] := .group hinner .nil
      simpa using hrest.after hgroup
    | closing b =>
      obtain ⟨opened, before, gs, hgroups, rfl⟩ := feed_closing.mp hfeed
      rw [hgroups]
      exact ⟨[], [], start, ts, rfl, .nil, by simpa using hs'⟩

end Stack

/-- Tokens are grouped into forms exactly if reading them leaves those forms and no open group. -/
theorem groups_iff {ts : List Token.Placed} {fs : List Form} :
    Groups ts fs ↔ Stack.feedAll ⟨[], []⟩ ts = some ⟨fs.reverse, []⟩ := by
  constructor
  · intro h
    have hts := Stack.feedAll_of_groups h ⟨[], []⟩ []
    rwa [List.append_nil, List.append_nil] at hts
  · intro h
    obtain ⟨gs, hgs, hrev⟩ := Stack.closes_of_feedAll h
    rw [List.append_nil] at hrev
    rwa [List.reverse_inj.mp hrev]

end BraceLisp
