/-!
Lists of rows with a key, in the order in which the keys first came. `upsert` changes the row of a
key or appends one, and `mergeOn` does so for every row of a second list. `groupOn` makes such a
list of items at once.
-/

namespace CompiledResources.Keyed

variable {α κ : Type} [DecidableEq κ]

/-- The first row with key `k`. -/
def find? (key : α → κ) (k : κ) (rows : List α) : Option α :=
  rows.find? fun row => key row = k

/-- Changes the first row with key `k`; when there is none, appends `fresh`. -/
def upsert (key : α → κ) (k : κ) (change : α → α) (fresh : α) : List α → List α
  | [] => [fresh]
  | row :: rest =>
    if key row = k then change row :: rest else row :: upsert key k change fresh rest

/-- Changes the first row with key `k`, if there is one. -/
def modify (key : α → κ) (k : κ) (change : α → α) : List α → List α
  | [] => []
  | row :: rest => if key row = k then change row :: rest else row :: modify key k change rest

/-- Brings the rows of `others` into `rows` one after another: joined to the row of the same key
where there is one, appended where there is none. -/
def mergeOn (key : α → κ) (join : α → α → α) (rows others : List α) : List α :=
  others.foldl (fun acc other => upsert key (key other) (join · other) other acc) rows

/-- Each of the keys once, where it first comes. -/
def firsts (keys : List κ) : List κ := keys.eraseDups

/-- A row for each key of the items, in the order in which the keys first come, made of all items
with the key. -/
def groupOn {β : Type} (key : α → κ) (make : κ → List α → β) (items : List α) : List β :=
  (firsts (items.map key)).map fun k => make k (items.filter fun item => key item = k)

/-! ### What an upsert changes -/

variable (key : α → κ) {k : κ} {change : α → α} {fresh : α}

/-- The row of the key is the changed one, or the fresh one when there was none. -/
theorem find?_upsert_self (change_key : ∀ row, key row = k → key (change row) = k)
    (fresh_key : key fresh = k) (rows : List α) :
    find? key k (upsert key k change fresh rows) =
      some (((find? key k rows).map change).getD fresh) := by
  induction rows with
  | nil => simp [upsert, find?, fresh_key]
  | cons row rest ih =>
    by_cases h : key row = k
    · simp [upsert, find?, h, change_key]
    · simp only [find?] at ih
      simp [upsert, find?, h, ih]

/-- The row of any other key stays. -/
theorem find?_upsert_of_ne (change_key : ∀ row, key row = k → key (change row) = k)
    (fresh_key : key fresh = k) {other : κ} (ne : other ≠ k) (rows : List α) :
    find? key other (upsert key k change fresh rows) = find? key other rows := by
  induction rows with
  | nil => simp [upsert, find?, fresh_key, ne.symm]
  | cons row rest ih =>
    simp only [find?] at ih
    by_cases h : key row = k
    · simp [upsert, find?, h, change_key, ne.symm]
    · simp [upsert, find?, h, ih, List.find?_cons]

/-- A new key comes behind the keys that were there. -/
theorem keys_upsert (change_key : ∀ row, key row = k → key (change row) = k)
    (fresh_key : key fresh = k) (rows : List α) :
    (upsert key k change fresh rows).map key =
      if k ∈ rows.map key then rows.map key else rows.map key ++ [k] := by
  induction rows with
  | nil => simp [upsert, fresh_key]
  | cons row rest ih =>
    by_cases h : key row = k
    · simp [upsert, h, change_key]
    · have new : ¬ k = key row := fun e => h e.symm
      simp only [upsert, h, if_false, List.map_cons, ih, List.mem_cons, new, false_or]
      split <;> simp

end CompiledResources.Keyed
