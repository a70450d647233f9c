import CompiledResources.Contents

/-!
Positions of types in the contents of a table. Two types may be alike in all they hold; their
positions tell them apart. The type that a resource id belongs to is the one at the position of the
id, and that type is the one whose variants are cleared by id.
-/

namespace CompiledResources

/-- The number of a package in a table and of a type in that package. -/
structure TypePosition where
  package : Nat
  type : Nat
deriving DecidableEq, Repr

namespace Keyed

variable {α κ : Type} [DecidableEq κ]

/-- The number of the first row with key `k`. -/
def position? (key : α → κ) (k : κ) (rows : List α) : Option Nat :=
  rows.findIdx? fun row => key row = k

variable {key : α → κ} {k : κ} {rows : List α}

/-- The first row with a key is the row at the position of the key. -/
theorem find?_eq_bind_position? (rows : List α) :
    find? key k rows = (position? key k rows).bind fun i => rows[i]? := by
  induction rows with
  | nil => rfl
  | cons row rest ih =>
    by_cases h : key row = k
    · simp [find?, position?, List.findIdx?_cons, h]
    · have hfind : find? key k (row :: rest) = find? key k rest := by
        simp [find?, h]
      have hposition :
          position? key k (row :: rest) = (position? key k rest).map (· + 1) := by
        simp [position?, List.findIdx?_cons, h]
      rw [hfind, ih, hposition, Option.bind_map]
      rfl

theorem exists_of_position? {i : Nat} (h : position? key k rows = some i) :
    ∃ row, rows[i]? = some row ∧ key row = k := by
  obtain ⟨hi, hkey, -⟩ := List.findIdx?_eq_some_iff_getElem.mp h
  exact ⟨rows[i], List.getElem?_eq_getElem hi, of_decide_eq_true hkey⟩

/-- A row is the first one with a key when it has the key and no earlier row does. -/
theorem position?_eq_some_iff {i : Nat} {row : α} (hrow : rows[i]? = some row) :
    position? key k rows = some i ↔ key row = k ∧ ∀ earlier ∈ rows.take i, key earlier ≠ k := by
  obtain ⟨hi, rfl⟩ := List.getElem?_eq_some_iff.mp hrow
  rw [position?, List.findIdx?_eq_some_iff_getElem]
  constructor
  · rintro ⟨_, hkey, hfirst⟩
    refine ⟨of_decide_eq_true hkey, fun earlier hearlier => ?_⟩
    obtain ⟨j, hj, rfl⟩ := List.mem_take_iff_getElem.mp hearlier
    simpa using hfirst j (Nat.lt_of_lt_of_le hj (Nat.min_le_left _ _))
  · rintro ⟨hkey, hfirst⟩
    refine ⟨hi, decide_eq_true hkey, fun j hj => ?_⟩
    have hmem : rows[j] ∈ rows.take i :=
      List.mem_take_iff_getElem.mpr ⟨j, Nat.lt_min.mpr ⟨hj, Nat.lt_trans hj hi⟩, rfl⟩
    simpa using hfirst _ hmem

/-- Changes that agree on the row at a position come to the same there. -/
theorem modify_congr {change change' : α → α} {i : Nat} {row : α} (hrow : rows[i]? = some row)
    (hchange : change row = change' row) : rows.modify i change = rows.modify i change' := by
  apply List.ext_getElem?
  intro j
  rw [List.getElem?_modify, List.getElem?_modify]
  by_cases hj : i = j
  · subst hj
    simp [hrow, hchange]
  · simp [hj]

/-- A change by key is a change at the position of the key, if there is one. -/
theorem modify_eq_of_position? (change : α → α) (rows : List α) :
    modify key k change rows =
      match position? key k rows with
      | some i => rows.modify i change
      | none => rows := by
  induction rows with
  | nil => rfl
  | cons row rest ih =>
    rw [modify, ih, position?, position?, List.findIdx?_cons]
    by_cases h : key row = k
    · simp [h]
    · cases rest.findIdx? fun row => key row = k <;> simp [h]

end Keyed

namespace Contents

/-- The type at a position. -/
def typeAt? (contents : Contents) (position : TypePosition) : Option TypeGroup :=
  contents.packages[position.package]?.bind fun package => package.types[position.type]?

/-- The position of the type that a resource id belongs to. -/
def positionOfId? (contents : Contents) (id : Int) : Option TypePosition :=
  let parts := ResourceId.split id
  (Keyed.position? Package.id parts.package contents.packages).bind fun i =>
    contents.packages[i]?.bind fun package =>
      (Keyed.position? TypeGroup.id parts.type package.types).map fun j => ⟨i, j⟩

/-- Removes the resources of variant number `index` of the type at a position. -/
def emptyVariant (contents : Contents) (position : TypePosition) (index : Nat) : Contents :=
  let empty (group : TypeGroup) : TypeGroup :=
    { group with
      variants := group.variants.modify index fun variant => { variant with resources := [] } }
  let enter (package : Package) : Package :=
    { package with types := package.types.modify position.type empty }
  { contents with packages := contents.packages.modify position.package enter }

/-- An id belongs to the type at its position. -/
theorem typeOfId?_eq (contents : Contents) (id : Int) :
    contents.typeOfId? id = (contents.positionOfId? id).bind contents.typeAt? := by
  simp only [typeOfId?, positionOfId?, Package.typeOfId?, Keyed.find?_eq_bind_position?]
  cases hi : Keyed.position? Package.id (ResourceId.split id).package contents.packages with
  | none => rfl
  | some i =>
    obtain ⟨package, hpackage, -⟩ := Keyed.exists_of_position? hi
    simp [hpackage, Option.bind_map, Function.comp_def, typeAt?]

/-- Clearing by id empties a variant of the type at the position of the id. -/
theorem clearVariant_eq (contents : Contents) (id : Int) (index : Nat) :
    contents.clearVariant id index =
      match contents.positionOfId? id with
      | some position => contents.emptyVariant position index
      | none => contents := by
  simp only [clearVariant, positionOfId?, Keyed.modify_eq_of_position?]
  cases hi : Keyed.position? Package.id (ResourceId.split id).package contents.packages with
  | none => rfl
  | some i =>
    obtain ⟨package, hpackage, -⟩ := Keyed.exists_of_position? hi
    cases hj : Keyed.position? TypeGroup.id (ResourceId.split id).type package.types with
    | none =>
      simp only [hpackage, hj, Option.bind_some, Option.map_none]
      refine congrArg (fun packages => { contents with packages }) ?_
      refine (Keyed.modify_congr hpackage ?_).trans (List.modify_id i contents.packages)
      rw [hj]
      rfl
    | some j =>
      simp only [hpackage, hj, Option.bind_some, Option.map_some]
      refine congrArg (fun packages => { contents with packages }) ?_
      apply Keyed.modify_congr hpackage
      rw [hj]

end Contents
end CompiledResources
