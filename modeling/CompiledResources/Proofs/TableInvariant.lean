import CompiledResources.Proofs.StoredIds

/-!
What every table is like in every history. Nothing in it comes twice under one key, its resources
have ids that say where they are stored, and its global strings are numbered from zero on, in the
order in which they are listed.
-/

namespace CompiledResources

open Decoder

namespace OrderedMap

variable {υ : Type}

/-- The keys are the first `count` ordinals, in order. -/
def Counted (m : OrderedMap Int υ) (count : Nat) : Prop :=
  m.keys = (List.range count).map fun ordinal : Nat => (ordinal : Int)

theorem Counted.mem_keys {m : OrderedMap Int υ} {count : Nat} (h : m.Counted count)
    (ordinal : Nat) : (ordinal : Int) ∈ m.keys ↔ ordinal < count := by
  rw [h]
  simp only [List.mem_map, List.mem_range, Int.natCast_inj, exists_eq_right]

/-- An ordinal that is counted already, or is the next one, may be set. -/
theorem Counted.put {m : OrderedMap Int υ} {count ordinal : Nat} (h : m.Counted count)
    (hle : ordinal ≤ count) (v : υ) : (m.put ordinal v).Counted (max count (ordinal + 1)) := by
  rw [Counted, keys_put]
  split
  next hmem =>
    have hlt : ordinal < count := (h.mem_keys ordinal).mp hmem
    rw [Nat.max_eq_left hlt, h]
  next hnew =>
    obtain rfl : ordinal = count :=
      Nat.le_antisymm hle (Nat.le_of_not_lt fun hlt => hnew ((h.mem_keys ordinal).mpr hlt))
    rw [Nat.max_eq_right (Nat.le_succ ordinal), List.range_succ, List.map_append, h]
    rfl

/-- So may be the ordinals from one of these on, one after another. -/
theorem Counted.putAll {m : OrderedMap Int υ} {count start length : Nat} (h : m.Counted count)
    (hle : start ≤ count) {pairs : List (Int × υ)}
    (hpairs : pairs.map Prod.fst =
      (List.range' start length).map fun ordinal : Nat => (ordinal : Int)) :
    (m.putAll pairs).Counted (max count (start + length)) := by
  induction pairs generalizing m count start length with
  | nil =>
    obtain rfl : length = 0 := by simpa using (congrArg List.length hpairs).symm
    rwa [Nat.add_zero, Nat.max_eq_left hle]
  | cons pair rest ih =>
    cases length with
    | zero => cases hpairs
    | succ length =>
      rw [List.range'_succ, List.map_cons, List.map_cons, List.cons.injEq] at hpairs
      obtain ⟨hfirst, hrest⟩ := hpairs
      have hput : (m.put pair.1 pair.2).Counted (max count (start + 1)) := by
        rw [hfirst]
        exact h.put hle pair.2
      have hcount : max (max count (start + 1)) (start + 1 + length) =
          max count (start + (length + 1)) := by omega
      rw [← hcount]
      exact ih hput (Nat.le_max_right _ _) hrest

end OrderedMap

/-- The global strings have the ordinals from zero on. -/
def Contents.Counted (contents : Contents) : Prop := ∃ count, contents.strings.Counted count

theorem Contents.counted_merge {first second : Contents} (hfirst : first.Counted)
    (hsecond : second.Counted) : (first.merge second).Counted := by
  obtain ⟨count, hcount⟩ := hfirst
  obtain ⟨length, hlength⟩ := hsecond
  have hkeys : second.strings.map Prod.fst =
      (List.range' 0 length).map fun ordinal : Nat => (ordinal : Int) := by
    rw [← List.range_eq_range']
    exact hlength
  exact ⟨_, hcount.putAll (Nat.zero_le count) hkeys⟩

theorem OpenTable.ensures_counted (data : ByteArray) (state : OpenTable) (chunk : Chunk)
    (h : state.contents.Counted) :
    Ensures (OpenTable.enter data state chunk) fun next => next.contents.Counted := by
  obtain ⟨count, hcount⟩ := h
  refine .ite (.after fun pool => .pure ?_) (.ite ?_ (.pure ⟨count, hcount⟩))
  · -- A pool sets the ordinals of its own strings, which count from zero.
    have hkeys : (pool.strings.zipIdx.map fun pair => ((pair.2 : Int), pair.1)).map Prod.fst =
        (List.range' 0 pool.strings.length).map fun ordinal : Nat => (ordinal : Int) := by
      rw [← List.zipIdx_map_snd 0 pool.strings, List.map_map, List.map_map]
      rfl
    exact ⟨_, hcount.putAll (Nat.zero_le count) hkeys⟩
  · exact .after fun _ => .after fun _ => .after fun _ => .after fun _ => .after fun _ =>
      .after fun _ => .pure ⟨count, hcount⟩

theorem Contents.lasting_counted : Contents.Lasting Contents.Counted where
  start := ⟨0, rfl⟩
  enter := OpenTable.ensures_counted
  merge _ _ := Contents.counted_merge
  empty _ _ _ h := h

/-- In every history of several tables: no two packages of a table have the same id and name, no two
types of a package, and no two variants of a type the same qualifiers; the id of every stored
resource is a word of 32 bits with the number of its package, cut to a byte, and of its type; and
the ordinals of the global strings count from zero. -/
theorem Session.contents_afterAll (events : List (Text × Event)) (name : Text) :
    let contents := (Session.table (afterAll [] events) name).contents
    (contents.packages.map Package.key).Nodup ∧
      (∀ package ∈ contents.packages,
        (package.types.map TypeGroup.key).Nodup ∧
          ∀ group ∈ package.types,
            (group.variants.map Variant.qualifiers).Nodup ∧
              ∀ resource ∈ group.resources,
                (0 ≤ resource.id ∧ resource.id < 0x100000000) ∧
                  (ResourceId.split resource.id).package = package.id % 0x100 ∧
                    (ResourceId.split resource.id).type = group.id) ∧
        ∃ count : Nat,
          contents.strings.keys = (List.range count).map fun ordinal : Nat => (ordinal : Int) := by
  intro contents
  have hdistinct : contents.DistinctKeys :=
    contents_of_meets Contents.lasting_distinctKeys
      (meets_afterAll Contents.lasting_distinctKeys meets_nil events) name
  have haddressed : contents.Addressed :=
    contents_of_meets Contents.lasting_addressed
      (meets_afterAll Contents.lasting_addressed meets_nil events) name
  have hcounted : contents.Counted :=
    contents_of_meets Contents.lasting_counted
      (meets_afterAll Contents.lasting_counted meets_nil events) name
  refine ⟨hdistinct.packages, fun package hpackage => ?_, hcounted⟩
  have hkeys : package.DistinctKeys := hdistinct.parts package hpackage
  refine ⟨hkeys.types, fun group hgroup => ⟨hkeys.groups group hgroup, ?_⟩⟩
  intro resource hresource
  obtain ⟨_, hid⟩ := (haddressed package hpackage).resource hgroup hresource
  exact ⟨⟨hid.nonneg, hid.lt⟩, hid.package, hid.type⟩

theorem Session.contents_afterAll_neighbours :
    let contents := (Session.table (afterAll [] neighbours) "both").contents
    ∃ package ∈ contents.packages, ∃ group ∈ package.types, ∃ resource ∈ group.resources,
      package.id = 2 ∧ (ResourceId.split resource.id).package = 2 := by
  intro contents
  obtain ⟨found, first, second, one, two, hready, hall, -, hid, -, htypes, -, -, hresources⟩ :=
    packages_neighbours
  have hcontents : contents = found := by simp only [contents, Table.contents, hready]; rfl
  have hpackage : second ∈ contents.packages := by simp [hcontents, hall]
  have hgroup : two ∈ second.types := by simp [htypes]
  obtain ⟨resource, _, hsplit, -, -⟩ := List.map_eq_cons_iff.mp hresources
  have hresource : resource ∈ two.resources := by simp [hsplit]
  obtain ⟨-, hparts, -⟩ := Session.contents_afterAll neighbours "both"
  obtain ⟨-, hbyte, -⟩ := ((hparts second hpackage).2 two hgroup).2 resource hresource
  refine ⟨second, hpackage, two, hgroup, resource, hresource, hid, ?_⟩
  rw [hbyte, hid]
  rfl

end CompiledResources
