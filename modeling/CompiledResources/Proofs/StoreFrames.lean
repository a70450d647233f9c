import CompiledResources.Model.Ownership

/-!
What the operations on a store leave alone. The parts of an object only become more, and what is
added is an object that was just made and belongs to none. So no two objects come to have a part in
common, and an object that was there belongs to the same owners ever after.
-/

namespace CompiledResources.Store

variable {base store next last : Store} {mine more : ObjectRef → Prop}

/-- All parts are there, and each is listed once and by one owner. -/
structure Forest (store : Store) : Prop where
  has : ∀ {part owner}, store.PartOf part owner → store.Has part
  unique : ∀ {part owner other}, store.PartOf part owner → store.PartOf part other → owner = other
  nodup : ∀ owner, (store.parts owner).Nodup

/-- From one store to the next, only objects of `mine` and new ones changed, and no object that was
there got another owner. -/
structure Frame (mine : ObjectRef → Prop) (store next : Store) : Prop where
  forest : next.Forest
  has : ∀ {ref}, store.Has ref → next.Has ref
  object : ∀ {ref}, store.Has ref → ¬ mine ref → next.object ref = store.object ref
  partOf : ∀ {part owner}, store.Has part → (next.PartOf part owner ↔ store.PartOf part owner)

/-- An object was made from one store to the next and belongs to none yet. -/
structure Made (store next : Store) (ref : ObjectRef) : Prop where
  new : ¬ store.Has ref
  has : next.Has ref
  free : ∀ owner, ¬ next.PartOf ref owner

/-! ### Owners -/

theorem forest_empty : Forest {} := by
  have hparts (owner : ObjectRef) : parts {} owner = [] := by cases owner <;> rfl
  refine ⟨?_, ?_, ?_⟩
  · intro part owner hpart
    rw [PartOf, hparts] at hpart
    cases hpart
  · intro part owner other hpart
    rw [PartOf, hparts] at hpart
    cases hpart
  · intro owner
    rw [hparts]
    exact List.nodup_nil

/-- What is not there has no parts. -/
theorem has_of_partOf {part owner : ObjectRef} (h : store.PartOf part owner) : store.Has owner := by
  cases owner with
  | package ref =>
    rcases Nat.lt_or_ge ref.index store.packages.length with hlt | hge
    · exact hlt
    · rw [PartOf, parts, object, package, List.getElem?_eq_none hge] at h
      cases h
  | type ref =>
    rcases Nat.lt_or_ge ref.index store.types.length with hlt | hge
    · exact hlt
    · rw [PartOf, parts, object, type, List.getElem?_eq_none hge] at h
      cases h
  | variant ref => cases h

/-- Two objects that own the same are related. -/
theorem Forest.related_of_within (h : store.Forest) {part first second : ObjectRef}
    (hfirst : store.Within part first) (hsecond : store.Within part second) :
    store.Related first second :=
  Relation.ReflTransGen.total_of_right_unique (fun _ _ _ => h.unique) hfirst hsecond

/-! ### Frames -/

namespace Frame

theorem refl (h : store.Forest) : Frame mine store store where
  forest := h
  has := id
  object _ _ := rfl
  partOf _ := Iff.rfl

theorem mono (h : Frame mine store next) (hmore : ∀ ref, store.Has ref → mine ref → more ref) :
    Frame more store next where
  forest := h.forest
  has := h.has
  object hhas hnot := h.object hhas fun hmine => hnot (hmore _ hhas hmine)
  partOf := h.partOf

theorem trans (hfirst : Frame mine store next) (hsecond : Frame more next last)
    (hmore : ∀ ref, store.Has ref → more ref → mine ref) : Frame mine store last where
  forest := hsecond.forest
  has hhas := hsecond.has (hfirst.has hhas)
  object hhas hnot := by
    have hnotMore := fun hother => hnot (hmore _ hhas hother)
    exact (hsecond.object (hfirst.has hhas) hnotMore).trans (hfirst.object hhas hnot)
  partOf hhas := (hsecond.partOf (hfirst.has hhas)).trans (hfirst.partOf hhas)

/-- An object that was there is owned by the same objects as before. -/
theorem within_iff (h : Frame mine store next) {part whole : ObjectRef} (hhas : store.Has part) :
    next.Within part whole ↔ store.Within part whole := by
  constructor
  · intro hwithin
    induction hwithin using Relation.ReflTransGen.head_induction_on with
    | refl => exact .refl
    | head hpart _ ih =>
      have hbefore := (h.partOf hhas).mp hpart
      exact .head hbefore (ih (has_of_partOf hbefore))
  · intro hwithin
    induction hwithin using Relation.ReflTransGen.head_induction_on with
    | refl => exact .refl
    | head hpart _ ih => exact .head ((h.partOf hhas).mpr hpart) (ih (has_of_partOf hpart))

theorem related_iff (h : Frame mine store next) {first second : ObjectRef}
    (hfirst : store.Has first) (hsecond : store.Has second) :
    next.Related first second ↔ store.Related first second :=
  or_congr (h.within_iff hfirst) (h.within_iff hsecond)

theorem made (h : Frame mine store next) {ref : ObjectRef} (hmade : Made base store ref) :
    Made base next ref where
  new := hmade.new
  has := h.has hmade.has
  free owner hpart := hmade.free owner ((h.partOf hmade.has).mp hpart)

/-- One more object may be changed, and get parts that were made since. -/
theorem change (h : Frame mine base store) {ref : ObjectRef} {fresh : List ObjectRef}
    (hmine : base.Has ref → mine ref) (hhas : ∀ {other}, store.Has other → next.Has other)
    (hsame : ∀ other, other ≠ ref → next.object other = store.object other)
    (hparts : next.parts ref = store.parts ref ++ fresh) (hnodup : fresh.Nodup)
    (hfresh : ∀ part ∈ fresh, Made base store part) : Frame mine base next := by
  have hpartOf (part owner : ObjectRef) :
      next.PartOf part owner ↔ store.PartOf part owner ∨ owner = ref ∧ part ∈ fresh := by
    by_cases howner : owner = ref
    · subst howner
      simp [PartOf, hparts]
    · simp [PartOf, parts, hsame owner howner, howner]
  refine ⟨⟨?_, ?_, ?_⟩, ?_, ?_, ?_⟩
  · intro part owner hpart
    rcases (hpartOf part owner).mp hpart with hold | ⟨-, hnew⟩
    · exact hhas (h.forest.has hold)
    · exact hhas (hfresh part hnew).has
  · intro part owner other howner hother
    -- A part that was there has its one owner, and a fresh one was free until now.
    rcases (hpartOf part owner).mp howner with hold | ⟨rfl, hnew⟩
    · rcases (hpartOf part other).mp hother with hold' | ⟨-, hnew⟩
      · exact h.forest.unique hold hold'
      · exact absurd hold ((hfresh part hnew).free owner)
    · rcases (hpartOf part other).mp hother with hold | ⟨rfl, -⟩
      · exact absurd hold ((hfresh part hnew).free other)
      · rfl
  · intro owner
    by_cases howner : owner = ref
    · subst howner
      rw [hparts]
      refine List.nodup_append.mpr ⟨h.forest.nodup owner, hnodup, ?_⟩
      rintro part hold _ hnew rfl
      exact (hfresh part hnew).free owner hold
    · rw [parts, hsame owner howner]
      exact h.forest.nodup owner
  · intro other hother
    exact hhas (h.has hother)
  · intro other hother hnot
    have hne : other ≠ ref := by
      rintro rfl
      exact hnot (hmine hother)
    rw [hsame other hne, h.object hother hnot]
  · intro part owner hpart
    rw [hpartOf, h.partOf hpart]
    have hold : ¬ (owner = ref ∧ part ∈ fresh) := fun hnew => (hfresh part hnew.2).new hpart
    exact or_iff_left hold

/-- One more object may be made, of parts that were made since. -/
theorem make (h : Frame mine base store) (ref : ObjectRef) {fresh : List ObjectRef}
    (hnew : ¬ store.Has ref) (hself : next.Has ref)
    (hhas : ∀ {other}, store.Has other → next.Has other)
    (hsame : ∀ other, other ≠ ref → next.object other = store.object other)
    (hparts : next.parts ref = fresh) (hnodup : fresh.Nodup)
    (hfresh : ∀ part ∈ fresh, Made base store part) :
    Frame mine base next ∧ Made base next ref := by
  have hmissing : ¬ base.Has ref := fun hbase => hnew (h.has hbase)
  have hnone : store.parts ref = [] := by
    refine List.eq_nil_iff_forall_not_mem.mpr fun part hpart => hnew ?_
    exact has_of_partOf hpart
  have hframe : Frame mine base next := by
    refine h.change (fun hbase => absurd hbase hmissing) hhas hsame ?_ hnodup hfresh
    rw [hparts, hnone, List.nil_append]
  refine ⟨hframe, hmissing, hself, fun owner hpart => ?_⟩
  by_cases howner : owner = ref
  · rw [PartOf, howner, hparts] at hpart
    exact hnew (hfresh ref hpart).has
  · rw [PartOf, parts, hsame owner howner] at hpart
    exact hnew (h.forest.has hpart)

end Frame

/-! ### Single objects -/

theorem getElem?_append_of_ne {α : Type} {rows : List α} (row : α) {i : Nat}
    (hne : i ≠ rows.length) : (rows ++ [row])[i]? = rows[i]? := by
  simp only [List.getElem?_append, List.getElem?_singleton]
  split
  · rfl
  · rw [if_neg (by omega), List.getElem?_eq_none (by omega)]

theorem frame_newVariant (h : Frame mine base store) (variant : Variant) :
    Frame mine base (newVariant variant store).2 ∧
      Made base (newVariant variant store).2 (.variant (newVariant variant store).1) := by
  refine h.make (.variant ⟨store.variants.length⟩) (Nat.lt_irrefl _) ?_ ?_ ?_ rfl List.nodup_nil ?_
  · simp [Has, newVariant]
  · rintro (ref | ref | ref) hother
    · exact hother
    · exact hother
    · exact Nat.lt_of_lt_of_le hother (by simp [newVariant])
  · rintro (ref | ref | ref) hne
    · rfl
    · rfl
    · have hindex : ref.index ≠ store.variants.length := fun hindex =>
        hne (congrArg (ObjectRef.variant ⟨·⟩) hindex)
      simp only [object, Store.variant, newVariant, getElem?_append_of_ne _ hindex]
  · intro part hpart
    cases hpart

theorem frame_newType (h : Frame mine base store) (id : Int) (name : Text)
    {variants : List VariantRef} (hnodup : (variants.map ObjectRef.variant).Nodup)
    (hmade : ∀ ref ∈ variants.map ObjectRef.variant, Made base store ref) :
    Frame mine base (newType id name variants store).2 ∧
      Made base (newType id name variants store).2
        (.type (newType id name variants store).1) := by
  refine h.make (.type ⟨store.types.length⟩) (Nat.lt_irrefl _) ?_ ?_ ?_ ?_ hnodup hmade
  · simp [Has, newType]
  · rintro (ref | ref | ref) hother
    · exact hother
    · exact Nat.lt_of_lt_of_le hother (by simp [newType])
    · exact hother
  · rintro (ref | ref | ref) hne
    · rfl
    · have hindex : ref.index ≠ store.types.length := fun hindex =>
        hne (congrArg (ObjectRef.type ⟨·⟩) hindex)
      simp only [object, Store.type, newType, getElem?_append_of_ne _ hindex]
    · rfl
  · simp [parts, object, Store.type, newType, StoredObject.parts]

theorem frame_newPackage (h : Frame mine base store) (id : Int) (name : Text)
    {types : List TypeRef} (hnodup : (types.map ObjectRef.type).Nodup)
    (hmade : ∀ ref ∈ types.map ObjectRef.type, Made base store ref) :
    Frame mine base (newPackage id name types store).2 ∧
      Made base (newPackage id name types store).2
        (.package (newPackage id name types store).1) := by
  refine h.make (.package ⟨store.packages.length⟩) (Nat.lt_irrefl _) ?_ ?_ ?_ ?_ hnodup hmade
  · simp [Has, newPackage]
  · rintro (ref | ref | ref) hother
    · exact Nat.lt_of_lt_of_le hother (by simp [newPackage])
    · exact hother
    · exact hother
  · rintro (ref | ref | ref) hne
    · have hindex : ref.index ≠ store.packages.length := fun hindex =>
        hne (congrArg (ObjectRef.package ⟨·⟩) hindex)
      simp only [object, Store.package, newPackage, getElem?_append_of_ne _ hindex]
    · rfl
    · rfl
  · simp [parts, object, Store.package, newPackage, StoredObject.parts]

theorem frame_modifyVariant (h : Frame mine base store) {ref : VariantRef}
    (hmine : base.Has (.variant ref) → mine (.variant ref)) (change : Variant → Variant) :
    Frame mine base { store with variants := store.variants.modify ref.index change } := by
  refine h.change hmine ?_ ?_ (List.append_nil _).symm List.nodup_nil ?_
  · rintro (other | other | other) hother
    · exact hother
    · exact hother
    · exact Nat.lt_of_lt_of_eq hother (List.length_modify _ _ _).symm
  · rintro (other | other | other) hne
    · rfl
    · rfl
    · have hindex : ref.index ≠ other.index := fun hindex =>
        hne (congrArg (ObjectRef.variant ⟨·⟩) hindex.symm)
      simp only [object, Store.variant, List.getElem?_modify_ne _ _ hindex]
  · intro part hpart
    cases hpart

theorem frame_attachVariant (h : Frame mine base store) {ref : TypeRef}
    (hmine : base.Has (.type ref) → mine (.type ref)) {variant : VariantRef}
    (hmade : Made base store (.variant variant)) :
    Frame mine base (attachVariant ref variant store).2 := by
  rcases Nat.lt_or_ge ref.index store.types.length with hlt | hge
  · refine h.change hmine ?_ ?_ ?_ (List.pairwise_singleton _ (.variant variant)) ?_
    · rintro (other | other | other) hother
      · exact hother
      · exact Nat.lt_of_lt_of_eq hother (List.length_modify _ _ _).symm
      · exact hother
    · rintro (other | other | other) hne
      · rfl
      · have hindex : ref.index ≠ other.index := fun hindex =>
          hne (congrArg (ObjectRef.type ⟨·⟩) hindex.symm)
        simp only [object, Store.type, attachVariant, List.getElem?_modify_ne _ _ hindex]
      · rfl
    · simp [parts, object, Store.type, attachVariant, StoredObject.parts, hlt]
    · intro part hpart
      obtain rfl := List.mem_singleton.mp hpart
      exact hmade
  · have hsame : (attachVariant ref variant store).2 = store := by
      simp only [attachVariant, List.modify_eq_self hge]
    rwa [hsame]

theorem frame_attachType (h : Frame mine base store) {ref : PackageRef}
    (hmine : base.Has (.package ref) → mine (.package ref)) {type : TypeRef}
    (hmade : Made base store (.type type)) :
    Frame mine base (attachType ref type store).2 := by
  rcases Nat.lt_or_ge ref.index store.packages.length with hlt | hge
  · refine h.change hmine ?_ ?_ ?_ (List.pairwise_singleton _ (.type type)) ?_
    · rintro (other | other | other) hother
      · exact Nat.lt_of_lt_of_eq hother (List.length_modify _ _ _).symm
      · exact hother
      · exact hother
    · rintro (other | other | other) hne
      · have hindex : ref.index ≠ other.index := fun hindex =>
          hne (congrArg (ObjectRef.package ⟨·⟩) hindex.symm)
        simp only [object, Store.package, attachType, List.getElem?_modify_ne _ _ hindex]
      · rfl
      · rfl
    · simp [parts, object, Store.package, attachType, StoredObject.parts, hlt]
    · intro part hpart
      obtain rfl := List.mem_singleton.mp hpart
      exact hmade
  · have hsame : (attachType ref type store).2 = store := by
      simp only [attachType, List.modify_eq_self hge]
    rwa [hsame]

/-! ### Copies -/

/-- What an operation gives is new, and nothing that was there changed. -/
def Makes {ρ : Type} (toRef : ρ → ObjectRef) (operation : StateM Store ρ) : Prop :=
  ∀ store : Store, store.Forest →
    Frame (fun _ => False) store (operation store).2 ∧
      Made store (operation store).2 (toRef (operation store).1)

/-- Several objects that are made one after another are distinct. -/
theorem Makes.mapM {α ρ : Type} {toRef : ρ → ObjectRef} {make : α → StateM Store ρ}
    (hmake : ∀ a, Makes toRef (make a)) (items : List α) (h : store.Forest) :
    let made := items.mapM make store
    Frame (fun _ => False) store made.2 ∧ (made.1.map toRef).Nodup ∧
      ∀ ref ∈ made.1.map toRef, Made store made.2 ref := by
  induction items generalizing store with
  | nil =>
    refine ⟨.refl h, List.nodup_nil, ?_⟩
    intro ref href
    cases href
  | cons a rest ih =>
    intro made
    obtain ⟨hframe, hfirst⟩ := hmake a store h
    obtain ⟨hrest, hnodup, hmade⟩ := ih hframe.forest
    have hrun : made = (((make a store).1 :: (rest.mapM make (make a store).2).1),
        (rest.mapM make (make a store).2).2) := by
      simp only [made, List.mapM_cons]
      rfl
    rw [hrun]
    refine ⟨hframe.trans hrest fun _ _ => id, ?_, ?_⟩
    -- The first object was there when the others were made.
    · refine List.nodup_cons.mpr ⟨fun hmem => ?_, hnodup⟩
      exact (hmade _ hmem).new hfirst.has
    · intro ref href
      rcases List.mem_cons.mp href with rfl | hmem
      · exact hrest.made hfirst
      · exact ⟨fun hhas => (hmade ref hmem).new (hframe.has hhas), (hmade ref hmem).has,
          (hmade ref hmem).free⟩

theorem makes_newVariant (variant : Variant) : Makes .variant (newVariant variant) :=
  fun _ h => frame_newVariant (.refl h) variant

theorem makes_newType (id : Int) (name : Text) : Makes .type (newType id name) := by
  intro store h
  refine frame_newType (.refl h) id name List.nodup_nil ?_
  intro ref href
  cases href

theorem makes_newPackage (id : Int) (name : Text) : Makes .package (newPackage id name) := by
  intro store h
  refine frame_newPackage (.refl h) id name List.nodup_nil ?_
  intro ref href
  cases href

theorem makes_cloneVariant (ref : VariantRef) : Makes .variant (cloneVariant ref) :=
  fun store => makes_newVariant (store.variant ref) store

theorem makes_cloneType (ref : TypeRef) : Makes .type (cloneType ref) := by
  intro store h
  obtain ⟨hframe, hnodup, hmade⟩ := Makes.mapM makes_cloneVariant (store.type ref).variants h
  exact frame_newType hframe _ _ hnodup hmade

theorem makes_clonePackage (ref : PackageRef) : Makes .package (clonePackage ref) := by
  intro store h
  obtain ⟨hframe, hnodup, hmade⟩ := Makes.mapM makes_cloneType (store.package ref).types h
  exact frame_newPackage hframe _ _ hnodup hmade

/-! ### Changes -/

/-- An operation changes only an object and what it owns. -/
def Changes {α : Type} (whole : ObjectRef) (operation : StateM Store α) : Prop :=
  ∀ store : Store, store.Forest →
    Frame (fun ref => store.Within ref whole) store (operation store).2

/-- Changing a part is changing the whole. -/
theorem Changes.of_part {α : Type} {operation : StateM Store α} {part whole : ObjectRef}
    (hchanges : Changes part operation) (h : store.Forest) (hpart : store.PartOf part whole) :
    Frame (fun ref => store.Within ref whole) store (operation store).2 :=
  (hchanges store h).mono fun _ _ hwithin => hwithin.tail hpart

theorem Changes.forM {α : Type} {whole : ObjectRef} {act : α → StateM Store Unit}
    (hact : ∀ a, Changes whole (act a)) (items : List α) : Changes whole (items.forM act) := by
  intro store h
  induction items generalizing store with
  | nil => exact .refl h
  | cons a rest ih =>
    have hfirst := hact a store h
    have hrest := ih (act a store).2 hfirst.forest
    -- What the whole owns by now and was there before, it owned before.
    exact hfirst.trans hrest fun ref hhas => (hfirst.within_iff hhas).mp

theorem changes_push (ref : VariantRef) (resources : List Resource) :
    Changes (.variant ref) (push ref resources) :=
  fun _ h => frame_modifyVariant (.refl h) (fun _ => .refl) _

theorem changes_clear (ref : VariantRef) : Changes (.variant ref) (clear ref) :=
  fun _ h => frame_modifyVariant (.refl h) (fun _ => .refl) _

theorem changes_addVariant (ref other : VariantRef) :
    Changes (.variant ref) (addVariant ref other) :=
  fun store => changes_push ref (store.variant other).resources store

/-- A variant that is made may be given to a type. -/
theorem Makes.attachVariant {make : StateM Store VariantRef} (hmake : Makes .variant make)
    (ref : TypeRef) (h : store.Forest) :
    Frame (fun other => store.Within other (.type ref)) store
      (attachVariant ref (make store).1 (make store).2).2 := by
  obtain ⟨hframe, hmade⟩ := hmake store h
  exact frame_attachVariant (hframe.mono fun _ _ => False.elim) (fun _ => .refl) hmade

theorem Makes.attachType {make : StateM Store TypeRef} (hmake : Makes .type make)
    (ref : PackageRef) (h : store.Forest) :
    Frame (fun other => store.Within other (.package ref)) store
      (attachType ref (make store).1 (make store).2).2 := by
  obtain ⟨hframe, hmade⟩ := hmake store h
  exact frame_attachType (hframe.mono fun _ _ => False.elim) (fun _ => .refl) hmade

theorem partOf_of_variantOf? {ref : TypeRef} {qualifiers : Qualifiers} {known : VariantRef}
    (h : store.variantOf? ref qualifiers = some known) :
    store.PartOf (.variant known) (.type ref) :=
  List.mem_map_of_mem (List.mem_of_find?_eq_some h)

theorem partOf_of_typeOf? {ref : PackageRef} {id : Int} {name : Text} {known : TypeRef}
    (h : store.typeOf? ref id name = some known) : store.PartOf (.type known) (.package ref) :=
  List.mem_map_of_mem (List.mem_of_find?_eq_some h)

theorem changes_getOrAddVariant (ref : TypeRef) (qualifiers : Qualifiers) :
    Changes (.type ref) (getOrAddVariant ref qualifiers) := by
  intro store h
  simp only [getOrAddVariant, bind, StateT.bind, get, getThe, MonadStateOf.get, StateT.get, pure]
  cases store.variantOf? ref qualifiers with
  | some known => exact .refl h
  | none => exact (makes_newVariant { qualifiers }).attachVariant ref h

theorem changes_getOrAddType (ref : PackageRef) (id : Int) (name : Text) :
    Changes (.package ref) (getOrAddType ref id name) := by
  intro store h
  simp only [getOrAddType, bind, StateT.bind, get, getThe, MonadStateOf.get, StateT.get, pure]
  cases store.typeOf? ref id name with
  | some known => exact .refl h
  | none => exact (makes_newType id name).attachType ref h

theorem changes_takeVariant (ref : TypeRef) (other : VariantRef) :
    Changes (.type ref) (takeVariant ref other) := by
  intro store h
  simp only [takeVariant, bind, StateT.bind, get, getThe, MonadStateOf.get, StateT.get, pure]
  cases hfound : store.variantOf? ref (store.variant other).qualifiers with
  | some known => exact (changes_addVariant known other).of_part h (partOf_of_variantOf? hfound)
  | none => exact (makes_cloneVariant other).attachVariant ref h

theorem changes_addType (ref other : TypeRef) : Changes (.type ref) (addType ref other) :=
  fun store => Changes.forM (changes_takeVariant ref) (store.type other).variants store

theorem changes_takeType (ref : PackageRef) (other : TypeRef) :
    Changes (.package ref) (takeType ref other) := by
  intro store h
  simp only [takeType, bind, StateT.bind, get, getThe, MonadStateOf.get, StateT.get, pure]
  cases hfound : store.typeOf? ref (store.type other).id (store.type other).name with
  | some known => exact (changes_addType known other).of_part h (partOf_of_typeOf? hfound)
  | none => exact (makes_cloneType other).attachType ref h

theorem changes_addPackage (ref other : PackageRef) :
    Changes (.package ref) (addPackage ref other) :=
  fun store => Changes.forM (changes_takeType ref) (store.package other).types store

/-! ### Steps -/

/-- A step that is applied to no object makes one. -/
theorem makes_step {step : Step} (hstep : step.target? = none) (h : store.Forest) :
    ∃ made, ((perform step).run store).1 = some made ∧
      Frame (fun _ => False) store (store.after step) ∧ Made store (store.after step) made := by
  cases step with
  | newPackage id name => exact ⟨_, rfl, makes_newPackage id name store h⟩
  | newType id name => exact ⟨_, rfl, makes_newType id name store h⟩
  | newVariant qualifiers => exact ⟨_, rfl, makes_newVariant { qualifiers } store h⟩
  | clonePackage ref => exact ⟨_, rfl, makes_clonePackage ref store h⟩
  | cloneType ref => exact ⟨_, rfl, makes_cloneType ref store h⟩
  | cloneVariant ref => exact ⟨_, rfl, makes_cloneVariant ref store h⟩
  | getOrAddType _ _ _ | getOrAddVariant _ _ | push _ _ | clear _ | addPackage _ _ | addType _ _
  | addVariant _ _ => cases hstep

/-- A step that is applied to an object changes it and what it owns. -/
theorem changes_step {step : Step} {target : ObjectRef} (hstep : step.target? = some target) :
    Changes target (perform step) := by
  cases step with
  | getOrAddType ref id name =>
    obtain rfl := Option.some.inj hstep
    exact changes_getOrAddType ref id name
  | getOrAddVariant ref qualifiers =>
    obtain rfl := Option.some.inj hstep
    exact changes_getOrAddVariant ref qualifiers
  | push ref resources =>
    obtain rfl := Option.some.inj hstep
    exact changes_push ref resources
  | clear ref =>
    obtain rfl := Option.some.inj hstep
    exact changes_clear ref
  | addPackage ref other =>
    obtain rfl := Option.some.inj hstep
    exact changes_addPackage ref other
  | addType ref other =>
    obtain rfl := Option.some.inj hstep
    exact changes_addType ref other
  | addVariant ref other =>
    obtain rfl := Option.some.inj hstep
    exact changes_addVariant ref other
  | newPackage _ _ | newType _ _ | newVariant _ | clonePackage _ | cloneType _
  | cloneVariant _ => cases hstep

/-- What a step changes is the object it is applied to and what that owns. -/
theorem frame_after (h : store.Forest) (step : Step) :
    Frame (fun ref => ∃ target, step.target? = some target ∧ store.Within ref target) store
      (store.after step) := by
  cases hstep : step.target? with
  | none =>
    obtain ⟨_, _, hframe, _⟩ := makes_step hstep h
    exact hframe.mono fun _ _ => False.elim
  | some target =>
    exact (changes_step hstep store h).mono fun _ _ hwithin => ⟨target, rfl, hwithin⟩

/-- Objects never come to have a part in common. -/
theorem forest_performAll (h : store.Forest) (steps : List Step) :
    (performAll steps store).Forest := by
  induction steps generalizing store with
  | nil => exact h
  | cons step rest ih => exact ih (frame_after h step).forest

end CompiledResources.Store
