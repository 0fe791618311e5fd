import BraceLisp.Environment
import Mathlib.Data.List.Basic
import Mathlib.Data.String.Basic

/-!
Environments by binary search.

The names of an environment ascend, so a name is found by halving. Outside the window of the search
the entries are on their sides of the name (`Window`), and each comparison keeps this. A search
therefore ends at the entry of the name, or between the entries below it and those above it
(`position_splits`): where a name is bound, put and removed is what the search finds.
-/

namespace BraceLisp.Environment

variable {α : Type} {env : Environment α} {entries : List (String × α)} {name : String}

/-- Where a search among `n` entries ends: at the entry of the name, or where it would be. -/
inductive Position (n : Nat)
  | found (i : Fin n)
  | missing (i : Fin (n + 1))
  deriving DecidableEq, Repr

def Position.index {n : Nat} : Position n → Nat
  | found i => i
  | missing i => i

/-- Halves the window until the name is met or nothing is left. -/
def bisect (entries : List (String × α)) (name : String) (lo hi : Nat) (hlo : lo ≤ hi)
    (hhi : hi ≤ entries.length) : Position entries.length :=
  if hlt : lo < hi then
    let mid := lo + (hi - lo) / 2
    have hmid : mid < hi := by omega
    if entries[mid].1 = name then .found ⟨mid, by omega⟩
    else if entries[mid].1 < name then bisect entries name (mid + 1) hi hmid hhi
    else bisect entries name lo mid (by omega) (by omega)
  else .missing ⟨lo, by omega⟩
termination_by hi - lo

def position (env : Environment α) (name : String) : Position env.entries.length :=
  bisect env.entries name 0 env.entries.length (Nat.zero_le _) (Nat.le_refl _)

/-! ### The search -/

/-- The entries before the window are below the name, and those after it are above. -/
structure Window (entries : List (String × α)) (name : String) (lo hi : Nat) : Prop where
  below : ∀ e ∈ entries.take lo, e.1 < name
  above : ∀ e ∈ entries.drop hi, name < e.1

/-- Entries as those below a name, what it is bound to, and those above it. -/
structure Split (entries : List (String × α)) (name : String) (before : List (String × α))
    (value : Option α) (after : List (String × α)) : Prop where
  entries_eq : entries = before ++ ((value.map (name, ·)).toList ++ after)
  below : ∀ e ∈ before, e.1 < name
  above : ∀ e ∈ after, name < e.1

/-- A position is right if it splits the entries. -/
def Position.Splits (entries : List (String × α)) (name : String) :
    Position entries.length → Prop
  | .found i => Split entries name (entries.take i) (some entries[i].2) (entries.drop (i + 1))
  | .missing i => Split entries name (entries.take i) none (entries.drop i)

lemma Position.name_eq {i : Fin entries.length} (h : Splits entries name (.found i)) :
    entries[i].1 = name := by
  have hdrop : entries.drop i = (name, entries[i].2) :: entries.drop (i + 1) :=
    List.append_cancel_left ((List.take_append_drop i entries).trans h.entries_eq)
  rw [List.drop_eq_getElem_cons i.isLt, List.cons_eq_cons] at hdrop
  exact congrArg Prod.fst hdrop.1

lemma Sorted.below_getElem (h : env.Sorted) {i : Nat} (hi : i < env.entries.length) :
    ∀ e ∈ env.entries.take i, e.1 < env.entries[i].1 := by
  intro e he
  rw [Sorted, ← List.take_append_drop i env.entries, List.pairwise_append] at h
  exact h.2.2 e he _ (by rw [List.drop_eq_getElem_cons hi]; exact List.mem_cons_self)

lemma Sorted.above_getElem (h : env.Sorted) {i : Nat} (hi : i < env.entries.length) :
    ∀ e ∈ env.entries.drop (i + 1), env.entries[i].1 < e.1 := by
  rw [Sorted, ← List.take_append_drop i env.entries, List.pairwise_append,
    List.drop_eq_getElem_cons hi, List.pairwise_cons] at h
  exact h.2.1.1

/-- An entry below the name leaves the window what is after it. -/
lemma Window.after_of_lt {lo hi mid : Nat} (w : Window env.entries name lo hi) (h : env.Sorted)
    (hmid : mid < env.entries.length) (hlt : env.entries[mid].1 < name) :
    Window env.entries name (mid + 1) hi where
  below e he := by
    rw [List.take_succ_eq_append_getElem hmid, List.mem_append, List.mem_singleton] at he
    rcases he with he | rfl
    · exact (h.below_getElem hmid e he).trans hlt
    · exact hlt
  above := w.above

/-- An entry above the name leaves the window what is before it. -/
lemma Window.before_of_lt {lo hi mid : Nat} (w : Window env.entries name lo hi) (h : env.Sorted)
    (hmid : mid < env.entries.length) (hlt : name < env.entries[mid].1) :
    Window env.entries name lo mid where
  below := w.below
  above e he := by
    rw [List.drop_eq_getElem_cons hmid, List.mem_cons] at he
    rcases he with rfl | he
    · exact hlt
    · exact hlt.trans (h.above_getElem hmid e he)

lemma bisect_splits {lo hi : Nat} (h : env.Sorted) (hlo : lo ≤ hi) (hhi : hi ≤ env.entries.length)
    (w : Window env.entries name lo hi) :
    (bisect env.entries name lo hi hlo hhi).Splits env.entries name := by
  fun_induction bisect env.entries name lo hi hlo hhi with
  | case1 lo hi _ hhi _ mid hmid heq =>
    -- the window does not matter here: the order of the entries alone puts them on their sides
    have hlen : mid < env.entries.length := by omega
    refine ⟨?_, heq ▸ h.below_getElem hlen, heq ▸ h.above_getElem hlen⟩
    calc env.entries
        = env.entries.take mid ++ env.entries.drop mid := (List.take_append_drop ..).symm
      _ = env.entries.take mid ++ (name, env.entries[mid].2) :: env.entries.drop (mid + 1) := by
          rw [List.drop_eq_getElem_cons hlen, ← heq]
  | case2 lo hi _ hhi _ mid hmid _ hlt ih => exact ih (w.after_of_lt h (by omega) hlt)
  | case3 lo hi _ hhi _ mid hmid hne hnlt ih =>
    exact ih (w.before_of_lt h (by omega) (lt_of_le_of_ne (not_lt.mp hnlt) (Ne.symm hne)))
  | case4 lo hi hlo hhi hnlt =>
    obtain rfl : lo = hi := by omega
    exact ⟨by simp, w.below, w.above⟩

/-- A search comes to the place of the name. -/
theorem position_splits (h : env.Sorted) (name : String) :
    (env.position name).Splits env.entries name :=
  bisect_splits h _ _ ⟨by simp, by simp⟩

/-! ### What the sides of a name say -/

namespace Split

variable {before after : List (String × α)} {value : Option α}

lemma find?_eq (s : Split entries name before value after) :
    entries.find? (fun e => e.1 == name) = value.map (name, ·) := by
  have hbefore : before.find? (fun e => e.1 == name) = none :=
    List.find?_eq_none.mpr fun e he => by simpa using (s.below e he).ne
  have hafter : after.find? (fun e => e.1 == name) = none :=
    List.find?_eq_none.mpr fun e he => by simpa using (s.above e he).ne'
  rw [s.entries_eq, List.find?_append, List.find?_append, hbefore, hafter]
  cases value <;> simp

lemma filter_eq (s : Split entries name before value after) :
    entries.filter (fun e => e.1 != name) = before ++ after := by
  have hbefore : before.filter (fun e => e.1 != name) = before :=
    List.filter_eq_self.mpr fun e he => by simpa using (s.below e he).ne
  have hafter : after.filter (fun e => e.1 != name) = after :=
    List.filter_eq_self.mpr fun e he => by simpa using (s.above e he).ne'
  rw [s.entries_eq, List.filter_append, List.filter_append, hbefore, hafter]
  cases value <;> simp

lemma insertEntry_eq (s : Split entries name before value after) (new : α) :
    insertEntry name new entries = before ++ (name, new) :: after := by
  obtain ⟨rfl, below, above⟩ := s
  induction before with
  | nil =>
    cases value with
    | some v => simp [insertEntry]
    | none =>
      cases after with
      | nil => rfl
      | cons e after =>
        have hlt := above e List.mem_cons_self
        simp [insertEntry, hlt, hlt.ne]
  | cons e before ih =>
    have hlt := below e List.mem_cons_self
    have htail := ih fun d hd => below d (List.mem_cons_of_mem _ hd)
    simp [insertEntry, hlt.ne', hlt.not_gt, htail]

lemma before_eq (s : Split entries name before value after) :
    before = entries.filter fun e => e.1 < name := by
  have hbefore : before.filter (fun e => e.1 < name) = before :=
    List.filter_eq_self.mpr fun e he => decide_eq_true (s.below e he)
  have hnot (e) (he : e ∈ (value.map (name, ·)).toList ++ after) : ¬ e.1 < name := by
    rcases List.mem_append.mp he with he | he
    · cases value <;> simp_all
    · exact (s.above e he).not_gt
  have hrest : ((value.map (name, ·)).toList ++ after).filter (fun e => e.1 < name) = [] :=
    List.filter_eq_nil_iff.mpr fun e he => by simpa only [decide_eq_true_iff] using hnot e he
  rw [s.entries_eq, List.filter_append, hbefore, hrest, List.append_nil]

end Split

lemma Position.Splits.index_eq {p : Position entries.length} (h : p.Splits entries name) :
    p.index = (entries.filter fun e => e.1 < name).length := by
  cases p with
  | found i => rw [← Split.before_eq h, List.length_take, index]; omega
  | missing i => rw [← Split.before_eq h, List.length_take, index]; omega

lemma Position.Splits.unique {p q : Position entries.length} (hp : p.Splits entries name)
    (hq : q.Splits entries name) : p = q := by
  have hindex : p.index = q.index := hp.index_eq.trans hq.index_eq.symm
  cases p with
  | found i =>
    cases q with
    | found j => exact congrArg found (Fin.ext hindex)
    | missing j => simpa using (Split.find?_eq hp).symm.trans (Split.find?_eq hq)
  | missing i =>
    cases q with
    | found j => simpa using (Split.find?_eq hp).symm.trans (Split.find?_eq hq)
    | missing j => exact congrArg missing (Fin.ext hindex)

/-- There is one right position, so every search that comes to one comes to the same. -/
theorem position_eq_iff (h : env.Sorted) {p : Position env.entries.length} :
    env.position name = p ↔ p.Splits env.entries name :=
  ⟨fun heq => heq ▸ position_splits h name, (position_splits h name).unique⟩

lemma Sorted.exists_split (h : env.Sorted) (name : String) :
    ∃ before value after, Split env.entries name before value after := by
  have hsplits := position_splits h name
  cases hposition : env.position name with
  | found i => exact ⟨_, _, _, hposition ▸ hsplits⟩
  | missing i => exact ⟨_, _, _, hposition ▸ hsplits⟩

lemma Sorted.erase (h : env.Sorted) (name : String) : (env.erase name).Sorted :=
  List.Pairwise.filter _ h

lemma Sorted.insert (h : env.Sorted) (name : String) (value : α) :
    (env.insert name value).Sorted := by
  obtain ⟨before, _, after, s⟩ := h.exists_split name
  have hrest : (before ++ after).Pairwise fun a b => a.1 < b.1 := s.filter_eq ▸ h.erase name
  obtain ⟨hbefore, hafter, hcross⟩ := List.pairwise_append.mp hrest
  rw [Sorted, Environment.insert, s.insertEntry_eq, List.pairwise_append, List.pairwise_cons]
  refine ⟨hbefore, ⟨s.above, hafter⟩, fun a ha b hb => ?_⟩
  rcases List.mem_cons.mp hb with rfl | hb
  · exact s.below a ha
  · exact hcross a ha b hb

/-! ### What is bound, put and removed by search -/

def searchGet? (env : Environment α) (name : String) : Option α :=
  match env.position name with
  | .found i => some env.entries[i].2
  | .missing _ => none

/-- Replaces what the name is bound to, or inserts an entry where the search ends. -/
def searchPut (env : Environment α) (name : String) (value : α) : Option α × Environment α :=
  match env.position name with
  | .found i => (some env.entries[i].2, ⟨env.entries.modify i fun e => (e.1, value)⟩)
  | .missing i => (none, ⟨env.entries.insertIdx i (name, value)⟩)

def searchRemove (env : Environment α) (name : String) : Option α × Environment α :=
  match env.position name with
  | .found i => (some env.entries[i].2, ⟨env.entries.eraseIdx i⟩)
  | .missing _ => (none, env)

lemma insertIdx_eq_take_append_cons {β : Type} {bs : List β} {i : Nat} (h : i ≤ bs.length) (b : β) :
    bs.insertIdx i b = bs.take i ++ b :: bs.drop i := by
  induction i generalizing bs with
  | zero => rfl
  | succ i ih =>
    obtain - | ⟨c, bs⟩ := bs
    · simp at h
    · simp [ih (by simpa using h)]

theorem searchGet?_eq (h : env.Sorted) (name : String) : env.searchGet? name = env.get? name := by
  have hsplits := position_splits h name
  rw [searchGet?, get?]
  split <;> next hposition =>
    rw [hposition] at hsplits
    rw [Split.find?_eq hsplits]
    rfl

theorem searchPut_eq (h : env.Sorted) (name : String) (value : α) :
    env.searchPut name value = env.put name value := by
  have hsplits := position_splits h name
  rw [put, ← searchGet?_eq h, searchPut, searchGet?, Environment.insert]
  split
  · next i hposition =>
    rw [hposition] at hsplits
    rw [Split.insertEntry_eq hsplits, List.modify_eq_take_cons_drop i.isLt,
      ← Position.name_eq hsplits]
    rfl
  · next i hposition =>
    rw [hposition] at hsplits
    rw [Split.insertEntry_eq hsplits, insertIdx_eq_take_append_cons (Nat.le_of_lt_succ i.isLt)]

theorem searchRemove_eq (h : env.Sorted) (name : String) :
    env.searchRemove name = env.remove name := by
  have hsplits := position_splits h name
  rw [remove, ← searchGet?_eq h, searchRemove, searchGet?, Environment.erase]
  split
  · next i hposition =>
    rw [hposition] at hsplits
    rw [Split.filter_eq hsplits, List.eraseIdx_eq_take_drop_succ]
  · next i hposition =>
    rw [hposition] at hsplits
    rw [Split.filter_eq hsplits, List.take_append_drop]

end BraceLisp.Environment
