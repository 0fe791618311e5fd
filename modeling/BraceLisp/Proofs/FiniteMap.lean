import BraceLisp.Proofs.Bisection
import BraceLisp.Proofs.Utf8Order
import Mathlib.Data.Finmap
import Mathlib.Data.Finset.Sort

/-!
An environment is a finite map.

A run of changes answers as the same run on a finite map does, and leaves an environment that shows
the map and nothing else: neither the order of the changes nor names that are gone again can be told
from it (`Sorted.ext`). What carries a run is that the names ascend and that the bindings agree
(`Agrees`), and the search by halving takes the same steps.
-/

namespace BraceLisp.Environment

variable {α σ τ : Type} {env env' : Environment α} {m : Finmap fun _ : String => α}

/-! ### Bindings make the environment -/

lemma Sorted.mem_entries_iff (h : env.Sorted) {b : String × α} :
    b ∈ env.entries ↔ env.get? b.1 = some b.2 := by
  refine ⟨fun hb => ?_, mem_entries_of_get?⟩
  obtain ⟨before, value, after, s⟩ := h.exists_split b.1
  rw [get?, s.find?_eq]
  rw [s.entries_eq, List.mem_append, List.mem_append] at hb
  rcases hb with hb | hb | hb
  · exact absurd (s.below b hb) (lt_irrefl _)
  · cases value with
    | none => simp at hb
    | some v =>
      have hvalue : b = (b.1, v) := by simpa using hb
      rw [hvalue]
      rfl
  · exact absurd (s.above b hb) (lt_irrefl _)

lemma Sorted.nodup (h : env.Sorted) : env.entries.Nodup :=
  List.Pairwise.imp (fun hlt heq => (heq ▸ hlt).false) h

/-- Environments with the same bindings are equal. -/
theorem Sorted.ext (h : env.Sorted) (h' : env'.Sorted)
    (hget : ∀ name, env.get? name = env'.get? name) : env = env' := by
  have hperm : env.entries.Perm env'.entries :=
    (List.perm_ext_iff_of_nodup h.nodup h'.nodup).mpr fun b => by
      rw [h.mem_entries_iff, h'.mem_entries_iff, hget]
  have hentries : env.entries = env'.entries :=
    hperm.eq_of_pairwise (fun a b _ _ hab hba => absurd hab hba.not_gt) h h'
  obtain ⟨entries⟩ := env
  exact congrArg mk hentries

/-! ### Changes -/

inductive Change (α : Type)
  | put (name : String) (value : α)
  | remove (name : String)
  deriving DecidableEq, Repr

namespace Change

def perform (env : Environment α) : Change α → Option α × Environment α
  | put name value => env.put name value
  | remove name => env.remove name

def search (env : Environment α) : Change α → Option α × Environment α
  | put name value => env.searchPut name value
  | remove name => env.searchRemove name

/-- The change on a finite map, which answers what was bound. -/
def onMap (m : Finmap fun _ : String => α) : Change α → Option α × Finmap fun _ : String => α
  | put name value => (m.lookup name, m.insert name value)
  | remove name => (m.lookup name, m.erase name)

/-- The answers to changes one after another, and what they lead to. -/
def run (step : σ → Change α → Option α × σ) (s : σ) : List (Change α) → List (Option α) × σ
  | [] => ([], s)
  | change :: rest =>
    let (answer, s') := step s change
    let (answers, last) := run step s' rest
    (answer :: answers, last)

/-- Where each step answers the same and keeps a relation, a run does. -/
lemma run_of_step {R : σ → τ → Prop} {f : σ → Change α → Option α × σ}
    {g : τ → Change α → Option α × τ}
    (hstep : ∀ s t change, R s t →
      (f s change).1 = (g t change).1 ∧ R (f s change).2 (g t change).2)
    {s : σ} {t : τ} (h : R s t) (changes : List (Change α)) :
    (run f s changes).1 = (run g t changes).1 ∧ R (run f s changes).2 (run g t changes).2 := by
  induction changes generalizing s t with
  | nil => exact ⟨rfl, h⟩
  | cons change rest ih =>
    obtain ⟨hanswer, hnext⟩ := hstep s t change h
    obtain ⟨hanswers, hlast⟩ := ih hnext
    exact ⟨congrArg₂ List.cons hanswer hanswers, hlast⟩

lemma run_puts (step : σ → Change α → Option α × σ) (s : σ) (bindings : List (String × α)) :
    (run step s (bindings.map fun b => put b.1 b.2)).2 =
      bindings.foldl (fun s b => (step s (put b.1 b.2)).2) s := by
  induction bindings generalizing s with
  | nil => rfl
  | cons b rest ih => exact ih _

end Change

open Change

lemma perform_sorted (h : env.Sorted) (change : Change α) : (perform env change).2.Sorted := by
  cases change with
  | put name value => exact h.insert name value
  | remove name => exact h.erase name

lemma search_eq (h : env.Sorted) (change : Change α) : search env change = perform env change := by
  cases change with
  | put name value => exact searchPut_eq h name value
  | remove name => exact searchRemove_eq h name

/-! ### Runs -/

/-- What an environment and a finite map keep in common from change to change. -/
structure Agrees (env : Environment α) (m : Finmap fun _ : String => α) : Prop where
  sorted : env.Sorted
  get?_eq : ∀ name, env.get? name = m.lookup name

/-- All that can be seen of an environment is that of the finite map. -/
structure Represents (env : Environment α) (m : Finmap fun _ : String => α) : Prop where
  ascending : env.names.Pairwise fun a b => a.toUTF8.toList < b.toUTF8.toList
  get?_eq : ∀ name, env.get? name = m.lookup name
  searchGet?_eq : ∀ name, env.searchGet? name = m.lookup name
  names_eq : env.names = m.keys.sort (· ≤ ·)
  size_eq : env.size = m.keys.card

lemma Agrees.empty : Agrees (empty : Environment α) ∅ where
  sorted := List.Pairwise.nil
  get?_eq name := by rw [get?_empty, Finmap.lookup_empty]

lemma Agrees.perform (h : Agrees env m) (change : Change α) :
    (perform env change).1 = (onMap m change).1 ∧
      Agrees (perform env change).2 (onMap m change).2 := by
  cases change with
  | put name value =>
    refine ⟨h.get?_eq name, h.sorted.insert name value, fun other => ?_⟩
    rw [Change.perform, put, get?_insert, h.get?_eq]
    split
    · next heq => subst heq; exact (Finmap.lookup_insert m).symm
    · next hne => exact (Finmap.lookup_insert_of_ne m (Ne.symm hne)).symm
  | remove name =>
    refine ⟨h.get?_eq name, h.sorted.erase name, fun other => ?_⟩
    rw [Change.perform, remove, get?_erase, h.get?_eq]
    split
    · next heq => subst heq; exact (Finmap.lookup_erase name m).symm
    · next hne => exact (Finmap.lookup_erase_ne (Ne.symm hne)).symm

lemma Sorted.names_pairwise (h : env.Sorted) : env.names.Pairwise (· < ·) :=
  List.pairwise_map.mpr h

lemma mem_names_iff {name : String} : name ∈ env.names ↔ (env.get? name).isSome := by
  simp [names, get?]

lemma Agrees.names_eq (h : Agrees env m) : env.names = m.keys.sort (· ≤ ·) := by
  have hkeys : env.names.toFinset = m.keys := by
    ext name
    rw [List.mem_toFinset, mem_names_iff, h.get?_eq, Finmap.lookup_isSome, Finmap.mem_keys]
  have hlt := h.sorted.names_pairwise
  rw [← hkeys, (List.toFinset_sort _ (hlt.imp ne_of_lt)).mpr (hlt.imp le_of_lt)]

lemma Agrees.represents (h : Agrees env m) : Represents env m where
  ascending := h.sorted.names_pairwise.imp Text.lt_iff_toUTF8_lt.mp
  get?_eq := h.get?_eq
  searchGet?_eq name := by rw [searchGet?_eq h.sorted, h.get?_eq]
  names_eq := h.names_eq
  size_eq := by rw [← Finset.length_sort (· ≤ ·), ← h.names_eq, names, List.length_map, size]

lemma agrees_run (changes : List (Change α)) :
    (run Change.perform empty changes).1 = (run onMap ∅ changes).1 ∧
      Agrees (run Change.perform empty changes).2 (run onMap ∅ changes).2 :=
  run_of_step (fun _ _ change h => h.perform change) Agrees.empty changes

/-- From an environment in order on, a run by search is the run. -/
lemma run_search (h : env.Sorted) (changes : List (Change α)) :
    run Change.search env changes = run Change.perform env changes := by
  -- a search is right only in order, so the order has to be carried along with the equality
  have hstep (env env' : Environment α) (change : Change α) (hR : env = env' ∧ env'.Sorted) :
      (search env change).1 = (Change.perform env' change).1 ∧
        (search env change).2 = (Change.perform env' change).2 ∧
          (Change.perform env' change).2.Sorted := by
    obtain ⟨rfl, hsorted⟩ := hR
    rw [search_eq hsorted]
    exact ⟨rfl, rfl, perform_sorted hsorted change⟩
  obtain ⟨hanswers, hlast, -⟩ := run_of_step hstep ⟨rfl, h⟩ changes
  exact Prod.ext hanswers hlast

lemma ofList_eq_run (bindings : List (String × α)) :
    ofList bindings = (run Change.perform empty (bindings.map fun b => .put b.1 b.2)).2 :=
  (run_puts Change.perform empty bindings).symm

/-- An environment is a finite map. It answers changes as the map does, by search or by order, and
shows afterwards what the map holds; and it is determined by what its names are bound to. -/
theorem environment_is_a_finite_map :
    (∀ changes : List (Change α),
      (run Change.perform empty changes).1 = (run onMap ∅ changes).1 ∧
      Represents (run Change.perform empty changes).2 (run onMap ∅ changes).2 ∧
      run Change.search empty changes = run Change.perform empty changes) ∧
    (∀ bindings : List (String × α),
      Represents (ofList bindings) (bindings.foldl (fun m b => m.insert b.1 b.2) ∅) ∧
      ofList bindings = (run Change.search empty (bindings.map fun b => .put b.1 b.2)).2) ∧
    ∀ changes changes' : List (Change α),
      (∀ name, (run Change.perform empty changes).2.get? name =
        (run Change.perform empty changes').2.get? name) →
      (run Change.perform empty changes).2 = (run Change.perform empty changes').2 := by
  have hsearch (changes : List (Change α)) :
      run Change.search empty changes = run Change.perform empty changes :=
    run_search Agrees.empty.sorted changes
  refine ⟨fun changes => ?_, fun bindings => ⟨?_, ?_⟩, fun changes changes' hget => ?_⟩
  · obtain ⟨hanswers, h⟩ := agrees_run changes
    exact ⟨hanswers, h.represents, hsearch changes⟩
  · have h := (agrees_run (bindings.map fun b => .put b.1 b.2)).2.represents
    rwa [← ofList_eq_run, run_puts] at h
  · rw [hsearch, ofList_eq_run]
  · exact (agrees_run changes).2.sorted.ext (agrees_run changes').2.sorted hget

theorem environment_is_a_finite_map_two_orders :
    (run Change.perform empty [.put "b" 2, .put "a" 1]).2 =
      (run Change.perform empty
        [.put "a" 3, .put "c" 0, .put "b" 2, .remove "c", .put "a" 1]).2 := by
  refine environment_is_a_finite_map.2.2 _ _ fun name => ?_
  simp only [run, Change.perform, put, remove, get?_insert, get?_erase, get?_empty]
  by_cases ha : "a" = name
  · simp [ha]
  by_cases hb : "b" = name
  · simp [← hb]
  simp [ha, hb]

end BraceLisp.Environment
