import CompiledResources.Keyed

/-!
Finite maps that remember the order in which their keys first came. A key that comes again keeps its
place and takes the new value.
-/

namespace CompiledResources

/-- Pairs of a key and its value, in insertion order. -/
abbrev OrderedMap (κ υ : Type) := List (κ × υ)

namespace OrderedMap

variable {κ υ : Type} [DecidableEq κ]

/-- The value of a key. -/
def get? (m : OrderedMap κ υ) (k : κ) : Option υ :=
  (Keyed.find? Prod.fst k m).map Prod.snd

/-- Sets the value of a key. -/
def put (m : OrderedMap κ υ) (k : κ) (v : υ) : OrderedMap κ υ :=
  Keyed.upsert Prod.fst k (fun _ => (k, v)) (k, v) m

/-- Sets the values of several keys, one after another. -/
def putAll (m : OrderedMap κ υ) (pairs : List (κ × υ)) : OrderedMap κ υ :=
  pairs.foldl (fun acc pair => acc.put pair.1 pair.2) m

/-- The map of pairs that may repeat a key. -/
def ofPairs (pairs : List (κ × υ)) : OrderedMap κ υ :=
  putAll [] pairs

/-- The keys in insertion order. -/
def keys (m : OrderedMap κ υ) : List κ := m.map Prod.fst

theorem get?_put_self (m : OrderedMap κ υ) (k : κ) (v : υ) : (m.put k v).get? k = some v := by
  induction m with
  | nil => simp [put, get?, Keyed.upsert, Keyed.find?]
  | cons pair rest ih =>
    by_cases h : pair.1 = k
    · simp [put, get?, Keyed.upsert, Keyed.find?, h]
    · simp only [put, get?, Keyed.find?] at ih
      simpa [put, get?, Keyed.upsert, Keyed.find?, h] using ih

theorem get?_put_of_ne (m : OrderedMap κ υ) {k other : κ} (ne : other ≠ k) (v : υ) :
    (m.put k v).get? other = m.get? other := by
  induction m with
  | nil => simp [put, get?, Keyed.upsert, Keyed.find?, ne.symm]
  | cons pair rest ih =>
    simp only [put, get?, Keyed.find?] at ih
    by_cases h : pair.1 = k
    · simp [put, get?, Keyed.upsert, Keyed.find?, h, ne.symm]
    · by_cases hother : pair.1 = other
      · simp [put, get?, Keyed.upsert, Keyed.find?, ne, hother]
      · simpa [put, get?, Keyed.upsert, Keyed.find?, h, hother] using ih

/-- A new key comes behind the keys that were there; a known one keeps its place. -/
theorem keys_put (m : OrderedMap κ υ) (k : κ) (v : υ) :
    (m.put k v).keys = if k ∈ m.keys then m.keys else m.keys ++ [k] := by
  induction m with
  | nil => simp [put, keys, Keyed.upsert]
  | cons pair rest ih =>
    simp only [put, keys] at ih
    by_cases h : pair.1 = k
    · simp [put, keys, Keyed.upsert, h]
    · have new : ¬ k = pair.1 := fun e => h e.symm
      simp only [put, keys, Keyed.upsert, h, if_false, List.map_cons, ih, List.mem_cons, new,
        false_or]
      split <;> simp_all

end OrderedMap
end CompiledResources
