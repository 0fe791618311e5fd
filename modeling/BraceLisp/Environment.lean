/-!
Environments: finite maps from names to values. The entries are ordered by name, so that two
environments with the same bindings are equal. The order is kept by every operation; it is not
part of the type, because a value may hold an environment of values.
-/

namespace BraceLisp

structure Environment (α : Type) where
  entries : List (String × α)
  deriving DecidableEq, Repr

namespace Environment

variable {α : Type}

/-- The names ascend, so that no name has two entries. -/
def Sorted (env : Environment α) : Prop := env.entries.Pairwise fun a b => a.1 < b.1

def empty : Environment α := ⟨[]⟩

/-- Binds a name in a list of entries, in its place by order. -/
def insertEntry (name : String) (value : α) : List (String × α) → List (String × α)
  | [] => [(name, value)]
  | (n, v) :: rest =>
    if name = n then (name, value) :: rest
    else if name < n then (name, value) :: (n, v) :: rest
    else (n, v) :: insertEntry name value rest

/-- The environment with a name bound, whether it was bound before or not. -/
def insert (env : Environment α) (name : String) (value : α) : Environment α :=
  ⟨insertEntry name value env.entries⟩

/-- The value that a name is bound to. -/
def get? (env : Environment α) (name : String) : Option α :=
  (env.entries.find? fun e => e.1 == name).map Prod.snd

/-- The environment without a name. -/
def erase (env : Environment α) (name : String) : Environment α :=
  ⟨env.entries.filter fun e => e.1 != name⟩

/-- Binds a name, and answers what it was bound to before. -/
def put (env : Environment α) (name : String) (value : α) : Option α × Environment α :=
  (env.get? name, env.insert name value)

/-- Unbinds a name, and answers what it was bound to. -/
def remove (env : Environment α) (name : String) : Option α × Environment α :=
  (env.get? name, env.erase name)

def size (env : Environment α) : Nat := env.entries.length

def isEmpty (env : Environment α) : Bool := env.entries.isEmpty

/-- The bound names in ascending order. -/
def names (env : Environment α) : List String := env.entries.map Prod.fst

/-- Binds names one after another, so that a later binding of a name wins. -/
def insertAll (env : Environment α) (bindings : List (String × α)) : Environment α :=
  bindings.foldl (fun env b => env.insert b.1 b.2) env

def ofList (bindings : List (String × α)) : Environment α := empty.insertAll bindings

/-! ### Bindings -/

@[simp] theorem get?_empty (name : String) : (empty : Environment α).get? name = none := rfl

theorem get?_mk_cons (n name : String) (v : α) (rest : List (String × α)) :
    get? ⟨(n, v) :: rest⟩ name = if n = name then some v else get? ⟨rest⟩ name := by
  by_cases h : n = name <;> simp [get?, h]

theorem get?_insert (env : Environment α) (name other : String) (value : α) :
    (env.insert name value).get? other = if name = other then some value else env.get? other := by
  obtain ⟨entries⟩ := env
  simp only [insert]
  induction entries with
  | nil => simp [insertEntry, get?_mk_cons]
  | cons e rest ih =>
    obtain ⟨n, v⟩ := e
    simp only [insertEntry]
    split
    · next h => subst h; simp only [get?_mk_cons]; split <;> rfl
    · split
      · simp [get?_mk_cons]
      · next h _ =>
        rw [get?_mk_cons, ih, get?_mk_cons]
        by_cases hn : n = other
        · subst hn; simp [h]
        · simp [hn]

@[simp] theorem get?_insert_self (env : Environment α) (name : String) (value : α) :
    (env.insert name value).get? name = some value := by
  simp [get?_insert]

/-- Of several bindings of a name the last one counts, and any of them before what was bound. -/
theorem get?_insertAll (env : Environment α) (bindings : List (String × α)) (name : String) :
    (env.insertAll bindings).get? name = (bindings.reverse.lookup name).or (env.get? name) := by
  induction bindings generalizing env with
  | nil => rfl
  | cons b rest ih =>
    obtain ⟨n, v⟩ := b
    have htail : (env.insertAll ((n, v) :: rest)).get? name =
        ((env.insert n v).insertAll rest).get? name := rfl
    rw [htail, ih, get?_insert, List.reverse_cons, List.lookup_append, Option.or_assoc]
    by_cases h : n = name
    · subst h; simp
    · simp [h, List.lookup_cons, beq_false_of_ne (Ne.symm h)]

theorem get?_erase (env : Environment α) (name other : String) :
    (env.erase name).get? other = if name = other then none else env.get? other := by
  obtain ⟨entries⟩ := env
  simp only [erase]
  induction entries with
  | nil => simp [get?]
  | cons e rest ih =>
    obtain ⟨n, v⟩ := e
    rw [get?_mk_cons]
    by_cases h : n = name
    · subst h
      rw [List.filter_cons_of_neg (by simp), ih]
      split <;> rfl
    · rw [List.filter_cons_of_pos (by simp [h]), get?_mk_cons, ih]
      by_cases hn : n = other
      · subst hn; simp [Ne.symm h]
      · simp [hn]

/-! ### Entries -/

theorem mem_entries_insert {env : Environment α} {name : String} {value : α}
    {b : String × α} (h : b ∈ (env.insert name value).entries) :
    b = (name, value) ∨ b ∈ env.entries := by
  obtain ⟨entries⟩ := env
  simp only [insert] at h
  induction entries with
  | nil => exact Or.inl (by simpa [insertEntry] using h)
  | cons e rest ih =>
    obtain ⟨n, v⟩ := e
    simp only [insertEntry] at h
    split at h
    · rcases List.mem_cons.mp h with h | h
      · exact Or.inl h
      · exact Or.inr (List.mem_cons_of_mem _ h)
    · split at h
      · exact List.mem_cons.mp h
      · rcases List.mem_cons.mp h with h | h
        · exact Or.inr (h ▸ List.mem_cons_self)
        · exact (ih h).imp id (List.mem_cons_of_mem _)

theorem mem_entries_of_get? {env : Environment α} {name : String} {value : α}
    (h : env.get? name = some value) : (name, value) ∈ env.entries := by
  obtain ⟨e, he, hvalue⟩ := Option.map_eq_some_iff.mp h
  have hname : e.1 = name := by simpa using List.find?_some he
  have hmem := List.mem_of_find?_eq_some he
  obtain ⟨n, v⟩ := e
  cases hname
  cases hvalue
  exact hmem

theorem mem_entries_insertAll {env : Environment α} {bindings : List (String × α)}
    {b : String × α} (h : b ∈ (env.insertAll bindings).entries) :
    b ∈ bindings ∨ b ∈ env.entries := by
  induction bindings generalizing env with
  | nil => exact Or.inr h
  | cons d rest ih =>
    rcases ih h with h | h
    · exact Or.inl (List.mem_cons_of_mem _ h)
    · rcases mem_entries_insert h with rfl | h
      · exact Or.inl List.mem_cons_self
      · exact Or.inr h

end Environment

end BraceLisp
