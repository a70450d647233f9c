import CompiledResources.Proofs.StoreFrames

/-!
Ownership of model objects. A type belongs to one package at most and a variant to one type at most,
whatever steps built them up. So a step shows in the object it is applied to, in what that owns and
in its owners only, and a copy has nothing in common with what it was made of.
-/

namespace CompiledResources.Store

variable {store next : Store} {mine : ObjectRef → Prop}

/-! ### Owners of a kind -/

theorem not_partOf_package {ref : PackageRef} {owner : ObjectRef} :
    ¬ store.PartOf (.package ref) owner := by
  intro h
  cases owner <;> simp [PartOf, parts, object, StoredObject.parts] at h

theorem owner_of_type {ref : TypeRef} {owner : ObjectRef} (h : store.PartOf (.type ref) owner) :
    ∃ package, owner = .package package := by
  cases owner with
  | package package => exact ⟨package, rfl⟩
  | type other => simp [PartOf, parts, object, StoredObject.parts] at h
  | variant other => cases h

theorem eq_of_package_within {ref : PackageRef} {whole : ObjectRef}
    (h : store.Within (.package ref) whole) : whole = .package ref := by
  rcases h.cases_head with rfl | ⟨owner, hpart, -⟩
  · rfl
  · exact absurd hpart not_partOf_package

theorem eq_of_within_variant {part : ObjectRef} {ref : VariantRef}
    (h : store.Within part (.variant ref)) : part = .variant ref := by
  rcases h.cases_tail with hsame | ⟨owner, -, hpart⟩
  · exact hsame.symm
  · cases hpart

theorem eq_of_type_within {first second : TypeRef}
    (h : store.Within (.type first) (.type second)) : first = second := by
  rcases h.cases_head with hsame | ⟨owner, hpart, hrest⟩
  · exact ObjectRef.type.inj hsame
  · obtain ⟨package, rfl⟩ := owner_of_type hpart
    cases eq_of_package_within hrest

/-- At most one package owns an object. -/
theorem Forest.package_unique (h : store.Forest) {part : ObjectRef} {first second : PackageRef}
    (hfirst : store.Within part (.package first)) (hsecond : store.Within part (.package second)) :
    first = second := by
  rcases h.related_of_within hfirst hsecond with hwithin | hwithin
  · exact (ObjectRef.package.inj (eq_of_package_within hwithin)).symm
  · exact ObjectRef.package.inj (eq_of_package_within hwithin)

/-- At most one type owns an object. -/
theorem Forest.type_unique (h : store.Forest) {part : ObjectRef} {first second : TypeRef}
    (hfirst : store.Within part (.type first)) (hsecond : store.Within part (.type second)) :
    first = second := by
  rcases h.related_of_within hfirst hsecond with hwithin | hwithin
  · exact eq_of_type_within hwithin
  · exact (eq_of_type_within hwithin).symm

/-! ### Values -/

/-- An object is worth what it was when neither it nor what it owns changed. -/
theorem Frame.value_eq (hframe : Frame mine store next) (h : store.Forest) {whole : ObjectRef}
    (hhas : store.Has whole) (hkept : ∀ ref, store.Within ref whole → ¬ mine ref) :
    next.value whole = store.value whole := by
  have hvariant (ref : VariantRef) (href : store.Has (.variant ref))
      (hwithin : store.Within (.variant ref) whole) : next.variant ref = store.variant ref :=
    StoredObject.variant.inj (hframe.object href (hkept _ hwithin))
  have htype (ref : TypeRef) (href : store.Has (.type ref))
      (hwithin : store.Within (.type ref) whole) : next.typeValue ref = store.typeValue ref := by
    have hobject : next.type ref = store.type ref :=
      StoredObject.type.inj (hframe.object href (hkept _ hwithin))
    have hvariants : (store.type ref).variants.map next.variant =
        (store.type ref).variants.map store.variant := by
      apply List.map_congr_left
      intro part hpart
      have hpartOf : store.PartOf (.variant part) (.type ref) := List.mem_map_of_mem hpart
      exact hvariant part (h.has hpartOf) (.head hpartOf hwithin)
    rw [typeValue, hobject, hvariants]
    rfl
  cases whole with
  | package ref =>
    have hobject : next.package ref = store.package ref :=
      StoredObject.package.inj (hframe.object hhas (hkept _ .refl))
    have htypes : (store.package ref).types.map next.typeValue =
        (store.package ref).types.map store.typeValue := by
      apply List.map_congr_left
      intro part hpart
      have hpartOf : store.PartOf (.type part) (.package ref) := List.mem_map_of_mem hpart
      exact htype part (h.has hpartOf) (.single hpartOf)
    rw [value, packageValue, hobject, htypes]
    rfl
  | type ref => exact congrArg ObjectValue.type (htype ref hhas .refl)
  | variant ref => exact congrArg ObjectValue.variant (hvariant ref hhas .refl)

/-- A step shows in no object that is not related to the one it is applied to. -/
theorem Forest.value_after (h : store.Forest) (step : Step) {ref : ObjectRef}
    (hhas : store.Has ref)
    (hunrelated : ∀ target, step.target? = some target → ¬ store.Related target ref) :
    (store.after step).value ref = store.value ref := by
  apply (frame_after h step).value_eq h hhas
  rintro part hpart ⟨target, htarget, hwithin⟩
  exact hunrelated target htarget (h.related_of_within hwithin hpart)

/-- What is done to one object and to what it owns does not show in an object that is not related
to it. -/
theorem Forest.value_performAll (h : store.Forest) {first second : ObjectRef}
    (hfirst : store.Has first) (hsecond : store.Has second)
    (hunrelated : ¬ store.Related first second) {later : List Step}
    (hlater : AppliedWithin first later store) :
    (performAll later store).value second = store.value second := by
  induction later generalizing store with
  | nil => rfl
  | cons step rest ih =>
    obtain ⟨htarget, hrest⟩ := hlater
    have hframe := frame_after h step
    have hvalue : (store.after step).value second = store.value second := by
      refine h.value_after step hsecond fun target hstep hrelated => hunrelated ?_
      -- The first object owns the target, so what is related to the target is related to it.
      rcases hrelated with hwithin | hwithin
      · exact h.related_of_within (htarget target hstep) hwithin
      · exact .inr (hwithin.trans (htarget target hstep))
    have hstill : ¬ (store.after step).Related first second := by
      rwa [hframe.related_iff hfirst hsecond]
    exact (ih hframe.forest (hframe.has hfirst) (hframe.has hsecond) hstill hrest).trans hvalue

theorem Related.symm {first second : ObjectRef} (h : store.Related first second) :
    store.Related second first :=
  Or.symm h

/-- Objects that are not related are independent. -/
theorem Forest.independent (h : store.Forest) {first second : ObjectRef}
    (hfirst : store.Has first) (hsecond : store.Has second)
    (hunrelated : ¬ store.Related first second) : store.Independent first second :=
  fun _ => ⟨h.value_performAll hfirst hsecond hunrelated,
    h.value_performAll hsecond hfirst fun hrelated => hunrelated hrelated.symm⟩

/-! ### Copies and additions -/

/-- A new object is not related to any that was there. -/
theorem Frame.not_related_made (hframe : Frame mine store next) {made ref : ObjectRef}
    (hmade : Made store next made) (hhas : store.Has ref) : ¬ next.Related ref made := by
  rintro (hwithin | hwithin)
  · rcases ((hframe.within_iff hhas).mp hwithin).cases_tail with rfl | ⟨owner, -, hpart⟩
    · exact hmade.new hhas
    · exact hmade.new (has_of_partOf hpart)
  · rcases hwithin.cases_head with rfl | ⟨owner, hpart, -⟩
    · exact hmade.new hhas
    · exact hmade.free owner hpart

/-- What a step makes is independent of all that was there. -/
theorem Forest.exists_made (h : store.Forest) {step : Step} (hstep : step.target? = none) :
    ∃ made, ((perform step).run store).1 = some made ∧
      (¬ store.Has made ∧ (store.after step).Has made) ∧
        ∀ ref, store.Has ref → (store.after step).Independent ref made := by
  obtain ⟨made, hresult, hframe, hmade⟩ := makes_step hstep h
  refine ⟨made, hresult, ⟨hmade.new, hmade.has⟩, fun ref href => ?_⟩
  exact hframe.forest.independent (hframe.has href) hmade.has (hframe.not_related_made hmade href)

/-- An object is not related to another one that it can be added to. -/
theorem not_related_of_addition {step : Step} {merged other : ObjectRef}
    (hstep : step.addition? = some (merged, other)) (hne : merged ≠ other) :
    ¬ store.Related merged other := by
  cases step with
  | addPackage ref added =>
    obtain ⟨rfl, rfl⟩ := Prod.mk.inj (Option.some.inj hstep)
    rintro (hwithin | hwithin)
    · exact hne (eq_of_package_within hwithin).symm
    · exact hne (eq_of_package_within hwithin)
  | addType ref added =>
    obtain ⟨rfl, rfl⟩ := Prod.mk.inj (Option.some.inj hstep)
    rintro (hwithin | hwithin)
    · exact hne (congrArg ObjectRef.type (eq_of_type_within hwithin))
    · exact hne (congrArg ObjectRef.type (eq_of_type_within hwithin).symm)
  | addVariant ref added =>
    obtain ⟨rfl, rfl⟩ := Prod.mk.inj (Option.some.inj hstep)
    rintro (hwithin | hwithin)
    · exact hne (eq_of_within_variant hwithin)
    · exact hne (eq_of_within_variant hwithin).symm
  | newPackage _ _ | newType _ _ | newVariant _ | getOrAddType _ _ _ | getOrAddVariant _ _
  | push _ _ | clear _ | clonePackage _ | cloneType _ | cloneVariant _ => cases hstep

/-- An object stays independent of what it was added to. -/
theorem Forest.independent_addition (h : store.Forest) {step : Step} {merged other : ObjectRef}
    (hstep : step.addition? = some (merged, other)) (hne : merged ≠ other)
    (hmerged : store.Has merged) (hother : store.Has other) :
    (store.after step).Independent merged other := by
  have hframe := frame_after h step
  exact hframe.forest.independent (hframe.has hmerged) (hframe.has hother)
    (not_related_of_addition hstep hne)

/-- No two objects share a part, whatever steps made them. Every type stands in the list of one
package at most and there once, and every variant in that of one type, so at most one package and
one type own an object. A step shows in no object but the one it is applied to, those that this owns
and those that own it. So objects of which none owns the other are independent of each other; what a
constructor or a copy makes is a new object and independent of all that were there; and an object is
independent of another one that it has been added to. -/
theorem ownership_performAll (steps : List Step) :
    let store := performAll steps {}
    ((∀ type first second, type ∈ (store.package first).types →
        type ∈ (store.package second).types → first = second) ∧
      ∀ ref, (store.package ref).types.Nodup) ∧
    ((∀ variant first second, variant ∈ (store.type first).variants →
        variant ∈ (store.type second).variants → first = second) ∧
      ∀ ref, (store.type ref).variants.Nodup) ∧
    ((∀ part first second, store.Within part (.package first) →
        store.Within part (.package second) → first = second) ∧
      ∀ part first second, store.Within part (.type first) →
        store.Within part (.type second) → first = second) ∧
    (∀ step ref, store.Has ref →
      (∀ target, step.target? = some target → ¬ store.Related target ref) →
        (store.after step).value ref = store.value ref) ∧
    (∀ first second, store.Has first → store.Has second → ¬ store.Related first second →
      store.Independent first second) ∧
    (∀ step, step.target? = none → ∃ made, ((perform step).run store).1 = some made ∧
      (¬ store.Has made ∧ (store.after step).Has made) ∧
        ∀ ref, store.Has ref → (store.after step).Independent ref made) ∧
    ∀ step merged other, step.addition? = some (merged, other) → merged ≠ other →
      store.Has merged → store.Has other → (store.after step).Independent merged other := by
  intro store
  have h : store.Forest := forest_performAll forest_empty steps
  refine ⟨⟨?_, ?_⟩, ⟨?_, ?_⟩, ⟨?_, ?_⟩, ?_, ?_, ?_, ?_⟩
  · intro type first second hfirst hsecond
    exact ObjectRef.package.inj
      (h.unique (List.mem_map_of_mem hfirst) (List.mem_map_of_mem hsecond))
  · intro ref
    exact List.Pairwise.of_map _ (fun _ _ => mt (congrArg ObjectRef.type)) (h.nodup (.package ref))
  · intro variant first second hfirst hsecond
    exact ObjectRef.type.inj
      (h.unique (List.mem_map_of_mem hfirst) (List.mem_map_of_mem hsecond))
  · intro ref
    exact List.Pairwise.of_map _ (fun _ _ => mt (congrArg ObjectRef.variant)) (h.nodup (.type ref))
  · intro part first second
    exact h.package_unique
  · intro part first second
    exact h.type_unique
  · intro step ref
    exact h.value_after step
  · intro first second
    exact h.independent
  · intro step
    exact h.exists_made
  · intro step merged other
    exact h.independent_addition

/-- The steps that make a package with a type with a variant. -/
def Step.nested : List Step :=
  [.newPackage 1 "app", .getOrAddType ⟨0⟩ 1 "string", .getOrAddVariant ⟨0⟩ {}]

theorem ownership_performAll_nested :
    let resource : Resource := { id := 0x01010000, name := "hello", value := .null }
    let store := performAll Step.nested {}
    let copied := store.after (.clonePackage ⟨0⟩)
    let pushed := copied.after (.push ⟨0⟩ [resource])
    ((pushed.variant ⟨0⟩).resources.map Resource.id = [0x01010000] ∧
      copied.Within (.variant ⟨0⟩) (.package ⟨0⟩)) ∧
      ∃ copy, ¬ store.Has copy ∧ copied.Has copy ∧ pushed.value copy = copied.value copy := by
  intro resource store copied pushed
  have hvariant : copied.PartOf (.variant ⟨0⟩) (.type ⟨0⟩) := by
    change _ ∈ copied.parts _
    decide
  have htype : copied.PartOf (.type ⟨0⟩) (.package ⟨0⟩) := by
    change _ ∈ copied.parts _
    decide
  have hwithin : copied.Within (.variant ⟨0⟩) (.package ⟨0⟩) := .head hvariant (.single htype)
  have hhas : store.Has (.package ⟨0⟩) := by
    change 0 < store.packages.length
    decide
  obtain ⟨-, -, -, -, -, hmade, -⟩ := ownership_performAll Step.nested
  obtain ⟨copy, -, ⟨hnew, hcopy⟩, hindependent⟩ := hmade (.clonePackage ⟨0⟩) rfl
  have happlied : AppliedWithin (.package ⟨0⟩) [.push ⟨0⟩ [resource]] copied := by
    refine ⟨fun target htarget => ?_, trivial⟩
    obtain rfl := Option.some.inj htarget
    exact hwithin
  exact ⟨⟨by decide, hwithin⟩, copy, hnew, hcopy, (hindependent _ hhas _).1 happlied⟩

end CompiledResources.Store
