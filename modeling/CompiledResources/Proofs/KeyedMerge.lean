import CompiledResources.Keyed

/-!
Keyed lists in which no key comes twice. Merging two of them joins the rows of the keys that both
have, in the place of the first, and puts the other rows of the second behind; and a change of one
row may be made before the merge or after it.
-/

namespace CompiledResources.Keyed

variable {α κ : Type} {key : α → κ}

/-- No two rows have the same key. -/
def Distinct (key : α → κ) (rows : List α) : Prop := (rows.map key).Nodup

theorem Distinct.tail {row : α} {rest : List α} (h : Distinct key (row :: rest)) :
    Distinct key rest :=
  (List.nodup_cons.mp h).2

theorem Distinct.key_not_mem {row : α} {rest : List α} (h : Distinct key (row :: rest)) :
    key row ∉ rest.map key :=
  (List.nodup_cons.mp h).1

/-! ### Changes at a position -/

theorem map_key_modify {change : α → α} (hchange : ∀ row, key (change row) = key row) (i : Nat)
    (rows : List α) : (rows.modify i change).map key = rows.map key := by
  apply List.ext_getElem?
  intro j
  simp only [List.getElem?_map, List.getElem?_modify]
  cases rows[j]? with
  | none => rfl
  | some row => by_cases hj : i = j <;> simp [hj, hchange]

theorem forall_mem_modify {p : α → Prop} {change : α → α} (hchange : ∀ row, p row → p (change row))
    (i : Nat) {rows : List α} (hrows : ∀ row ∈ rows, p row) :
    ∀ row ∈ rows.modify i change, p row := by
  induction rows generalizing i with
  | nil => simp
  | cons head tail ih =>
    rw [List.forall_mem_cons] at hrows
    cases i with
    | zero => exact List.forall_mem_cons.mpr ⟨hchange head hrows.1, hrows.2⟩
    | succ i => exact List.forall_mem_cons.mpr ⟨hrows.1, ih i hrows.2⟩

/-- A change that only takes away from what a row holds takes away from the whole. -/
theorem flatMap_modify_subset {β : Type} {part : α → List β} {change : α → α}
    (hchange : ∀ row, part (change row) ⊆ part row) (i : Nat) (rows : List α) :
    (rows.modify i change).flatMap part ⊆ rows.flatMap part := by
  induction rows generalizing i with
  | nil => simp
  | cons head tail ih =>
    cases i with
    | zero =>
      have hhead := List.Subset.trans (hchange head) (List.subset_append_left _ (tail.flatMap part))
      exact List.append_subset.mpr ⟨hhead, List.subset_append_right _ _⟩
    | succ i =>
      have htail := List.Subset.trans (ih i) (List.subset_append_right (part head) _)
      exact List.append_subset.mpr ⟨List.subset_append_left _ _, htail⟩

/-! ### Rows found by key -/

variable [DecidableEq κ]

theorem find?_eq_none_iff {k : κ} {rows : List α} :
    find? key k rows = none ↔ k ∉ rows.map key := by
  simp [find?]

theorem key_of_find? {k : κ} {rows : List α} {row : α} (h : find? key k rows = some row) :
    key row = k := by
  simpa [find?] using List.find?_some h

theorem mem_of_find? {k : κ} {rows : List α} {row : α} (h : find? key k rows = some row) :
    row ∈ rows :=
  List.mem_of_find?_eq_some h

theorem find?_cons_self (row : α) (rest : List α) :
    find? key (key row) (row :: rest) = some row := by
  simp [find?]

theorem find?_cons_of_ne {k : κ} {row : α} {rest : List α} (hne : key row ≠ k) :
    find? key k (row :: rest) = find? key k rest := by
  simp [find?, hne]

theorem find?_of_mem {rows : List α} (hrows : Distinct key rows) {row : α} (hrow : row ∈ rows) :
    find? key (key row) rows = some row := by
  induction rows with
  | nil => cases hrow
  | cons head tail ih =>
    rcases List.mem_cons.mp hrow with rfl | htail
    · exact find?_cons_self row tail
    · have hne : key head ≠ key row := fun heq =>
        hrows.key_not_mem (heq ▸ List.mem_map_of_mem htail)
      rw [find?_cons_of_ne hne, ih hrows.tail htail]

/-! ### Upserts -/

variable {k : κ} {change : α → α} {fresh : α}

/-- What holds of every row that there is or can come in holds after an upsert. -/
theorem forall_mem_upsert {p : α → Prop} {rows : List α} (hrows : ∀ row ∈ rows, p row)
    (hchange : ∀ row ∈ rows, key row = k → p (change row)) (hfresh : p fresh) :
    ∀ row ∈ upsert key k change fresh rows, p row := by
  induction rows with
  | nil => simpa [upsert] using hfresh
  | cons head tail ih =>
    rw [List.forall_mem_cons] at hrows hchange
    rw [upsert]
    split
    next hkey => exact List.forall_mem_cons.mpr ⟨hchange.1 hkey, hrows.2⟩
    next => exact List.forall_mem_cons.mpr ⟨hrows.1, ih hrows.2 hchange.2⟩

/-- A row with a new key comes last. -/
theorem upsert_of_not_mem {rows : List α} (h : k ∉ rows.map key) :
    upsert key k change fresh rows = rows ++ [fresh] := by
  induction rows with
  | nil => rfl
  | cons head tail ih =>
    rw [List.map_cons, List.mem_cons, not_or] at h
    rw [upsert, if_neg (Ne.symm h.1), ih h.2, List.cons_append]

/-- Of a key that is there, exactly its row changes. -/
theorem upsert_of_mem {rows : List α} (hrows : Distinct key rows) (h : k ∈ rows.map key) :
    upsert key k change fresh rows =
      rows.map fun row => if key row = k then change row else row := by
  induction rows with
  | nil => cases h
  | cons head tail ih =>
    by_cases hhead : key head = k
    · have hrest : ∀ row ∈ tail, (if key row = k then change row else row) = row := by
        intro row hrow
        have hne : key row ≠ k := fun heq =>
          hrows.key_not_mem (hhead ▸ heq ▸ List.mem_map_of_mem hrow)
        rw [if_neg hne]
      rw [upsert, if_pos hhead, List.map_cons, if_pos hhead, List.map_congr_left hrest,
        List.map_id']
    · have htail : k ∈ tail.map key := by
        rcases List.mem_cons.mp h with heq | hmem
        · exact absurd heq.symm hhead
        · exact hmem
      rw [upsert, if_neg hhead, List.map_cons, if_neg hhead, ih hrows.tail htail]

/-- A row whose key is there already is left out. -/
theorem upsert_kept_of_mem {fresh : α} {rows : List α} (h : k ∈ rows.map key) :
    upsert key k (fun kept => kept) fresh rows = rows := by
  induction rows with
  | nil => cases h
  | cons row rest ih =>
    rw [upsert]
    split
    next => rfl
    next hrow =>
      rcases List.mem_cons.mp h with hkey | hrest
      · exact absurd hkey.symm hrow
      · rw [ih hrest]

/-- Two upserts of a key in which the row is there give the same when they change it alike. -/
theorem upsert_congr {change' : α → α} {fresh' : α} {rows : List α} {row : α}
    (hfind : find? key k rows = some row) (hchange : change row = change' row) :
    upsert key k change fresh rows = upsert key k change' fresh' rows := by
  induction rows with
  | nil => cases hfind
  | cons head tail ih =>
    by_cases hhead : key head = k
    · obtain rfl : head = row := by
        subst hhead
        simpa [find?_cons_self] using hfind
      rw [upsert, upsert, if_pos hhead, if_pos hhead, hchange]
    · rw [find?_cons_of_ne hhead] at hfind
      rw [upsert, upsert, if_neg hhead, if_neg hhead, ih hfind]

/-- Two upserts of the same key are one. -/
theorem upsert_upsert {change' : α → α} {fresh' : α} (hchange : ∀ row, key (change row) = key row)
    (hfresh : key fresh = k) (rows : List α) :
    upsert key k change' fresh' (upsert key k change fresh rows) =
      upsert key k (fun row => change' (change row)) (change' fresh) rows := by
  induction rows with
  | nil => simp [upsert, hfresh]
  | cons head tail ih =>
    by_cases hhead : key head = k
    · simp [upsert, hhead, hchange]
    · simp [upsert, hhead, ih]

/-- Upserts of different keys change places when the key of the outer one is there. -/
theorem upsert_comm {k' : κ} {change' : α → α} {fresh' : α} (hne : k' ≠ k)
    (hchange : ∀ row, key (change row) = key row) (hchange' : ∀ row, key (change' row) = key row)
    {rows : List α} (hmem : k ∈ rows.map key) :
    upsert key k' change' fresh' (upsert key k change fresh rows) =
      upsert key k change fresh (upsert key k' change' fresh' rows) := by
  induction rows with
  | nil => cases hmem
  | cons head tail ih =>
    by_cases hhead : key head = k
    · simp [upsert, hhead, hchange, Ne.symm hne]
    · have htail : k ∈ tail.map key := by
        rcases List.mem_cons.mp hmem with heq | hmem
        · exact absurd heq.symm hhead
        · exact hmem
      by_cases hhead' : key head = k'
      · simp [upsert, hhead', hchange', hne]
      · simp [upsert, hhead, hhead', ih htail]

theorem mem_keys_upsert (hchange : ∀ row, key row = k → key (change row) = k)
    (hfresh : key fresh = k) {rows : List α} {k' : κ} (h : k' ∈ rows.map key) :
    k' ∈ (upsert key k change fresh rows).map key := by
  rw [keys_upsert key hchange hfresh]
  split
  · exact h
  · exact List.mem_append_left _ h

theorem self_mem_keys_upsert (hchange : ∀ row, key row = k → key (change row) = k)
    (hfresh : key fresh = k) (rows : List α) : k ∈ (upsert key k change fresh rows).map key := by
  rw [keys_upsert key hchange hfresh]
  split
  next h => exact h
  next => simp

theorem distinct_upsert (hchange : ∀ row, key row = k → key (change row) = k)
    (hfresh : key fresh = k) {rows : List α} (hrows : Distinct key rows) :
    Distinct key (upsert key k change fresh rows) := by
  rw [Distinct, keys_upsert key hchange hfresh]
  split
  next => exact hrows
  next h => exact List.nodup_append.mpr ⟨hrows, by simp, by
    intro other hother new hnew heq
    obtain rfl := List.mem_singleton.mp hnew
    exact h (heq ▸ hother)⟩

/-! ### Merging -/

variable {join : α → α → α}

theorem mergeOn_cons (rows : List α) (other : α) (rest : List α) :
    mergeOn key join rows (other :: rest) =
      mergeOn key join (upsert key (key other) (join · other) other rows) rest := rfl

theorem distinct_mergeOn (hjoin : ∀ row other, key (join row other) = key row) {rows : List α}
    (hrows : Distinct key rows) (others : List α) :
    Distinct key (mergeOn key join rows others) := by
  induction others generalizing rows with
  | nil => exact hrows
  | cons other rest ih =>
    apply ih
    exact distinct_upsert (fun row hrow => (hjoin row other).trans hrow) rfl hrows

/-- What holds of the rows of both lists, and of what joining makes of such rows, holds after a
merge. -/
theorem forall_mem_mergeOn {p : α → Prop}
    (hjoin : ∀ row other, key row = key other → p row → p other → p (join row other))
    {rows others : List α} (hrows : ∀ row ∈ rows, p row) (hothers : ∀ other ∈ others, p other) :
    ∀ row ∈ mergeOn key join rows others, p row := by
  induction others generalizing rows with
  | nil => exact hrows
  | cons other rest ih =>
    rw [List.forall_mem_cons] at hothers
    exact ih (forall_mem_upsert hrows
      (fun row hrow hkey => hjoin row other hkey (hrows row hrow) hothers.1) hothers.1) hothers.2

/-- The rows of `rows`, each joined to the row of `others` with its key if there is one, and behind
them the rows of `others` with new keys. -/
def joined (key : α → κ) (join : α → α → α) (rows others : List α) : List α :=
  rows.map (fun row => ((find? key (key row) others).map (join row)).getD row) ++
    others.filter fun other => key other ∉ rows.map key

/-- One more row that is joined into a row of its key: no later row has the key. -/
theorem joined_cons_of_mem (hjoin : ∀ row other, key (join row other) = key row)
    {rows rest : List α} {other : α} (hrows : Distinct key rows)
    (hothers : Distinct key (other :: rest)) (hmem : key other ∈ rows.map key) :
    joined key join rows (other :: rest) =
      joined key join (upsert key (key other) (fun row => join row other) other rows) rest := by
  have hnone : find? key (key other) rest = none := find?_eq_none_iff.mpr hothers.key_not_mem
  have hkey : ∀ row, key row = key other → key (join row other) = key other :=
    fun row hrow => (hjoin row other).trans hrow
  have hkeys := keys_upsert key hkey (rfl : key other = key other) rows
  rw [if_pos hmem] at hkeys
  rw [joined, joined, hkeys, List.filter_cons_of_neg (by simpa using hmem),
    upsert_of_mem hrows hmem, List.map_map]
  congr 1
  apply List.map_congr_left
  intro row _
  by_cases hrow : key row = key other
  · simp [hrow, hjoin, hnone, find?_cons_self]
  · simp [hrow, find?_cons_of_ne (Ne.symm hrow)]

/-- One more row of a key that no row has stands behind the rows. -/
theorem joined_cons_of_not_mem {rows rest : List α} {other : α}
    (hothers : Distinct key (other :: rest)) (hmem : key other ∉ rows.map key) :
    joined key join rows (other :: rest) =
      joined key join (upsert key (key other) (fun row => join row other) other rows) rest := by
  have hnone : find? key (key other) rest = none := find?_eq_none_iff.mpr hothers.key_not_mem
  have hrest : ∀ row ∈ rest,
      (key row ∉ (rows ++ [other]).map key) = (key row ∉ rows.map key) := by
    intro row hrow
    have hne : key row ≠ key other := fun heq =>
      hothers.key_not_mem (heq ▸ List.mem_map_of_mem hrow)
    simp [hne]
  have hrows' : ∀ row ∈ rows,
      find? key (key row) (other :: rest) = find? key (key row) rest := by
    intro row hrow
    exact find?_cons_of_ne fun heq => hmem (heq ▸ List.mem_map_of_mem hrow)
  rw [joined, joined, upsert_of_not_mem hmem, List.filter_cons_of_pos (by simpa using hmem),
    List.map_append, List.append_assoc]
  congr 1
  · apply List.map_congr_left
    intro row hrow
    rw [hrows' row hrow]
  · simp only [List.map_cons, List.map_nil, hnone, Option.map_none, Option.getD_none,
      List.singleton_append]
    congr 1
    apply List.filter_congr
    intro row hrow
    simpa using hrest row hrow

/-- Merging row by row comes to joining and appending at once. -/
theorem mergeOn_eq_joined (hjoin : ∀ row other, key (join row other) = key row)
    {rows others : List α} (hrows : Distinct key rows) (hothers : Distinct key others) :
    mergeOn key join rows others = joined key join rows others := by
  induction others generalizing rows with
  | nil => simp [mergeOn, joined, find?]
  | cons other rest ih =>
    have hkey : ∀ row, key row = key other → key (join row other) = key other :=
      fun row hrow => (hjoin row other).trans hrow
    rw [mergeOn_cons, ih (distinct_upsert hkey rfl hrows) hothers.tail]
    by_cases hmem : key other ∈ rows.map key
    · rw [joined_cons_of_mem hjoin hrows hothers hmem]
    · rw [joined_cons_of_not_mem hothers hmem]

theorem joined_congr {join' : α → α → α} {rows others : List α}
    (h : ∀ row ∈ rows, ∀ other ∈ others, join row other = join' row other) :
    joined key join rows others = joined key join' rows others := by
  rw [joined, joined]
  congr 1
  apply List.map_congr_left
  intro row hrow
  cases hfind : find? key (key row) others with
  | none => rfl
  | some other => simp [h row hrow other (mem_of_find? hfind)]

/-- Each row merged with its own list meets itself. -/
theorem mergeOn_self (hjoin : ∀ row other, key (join row other) = key row) {rows : List α}
    (hrows : Distinct key rows) :
    mergeOn key join rows rows = rows.map fun row => join row row := by
  have hnew : rows.filter (fun row => key row ∉ rows.map key) = [] := by
    simpa using fun row hrow => ⟨row, hrow, rfl⟩
  rw [mergeOn_eq_joined hjoin hrows hrows, joined, hnew, List.append_nil]
  apply List.map_congr_left
  intro row hrow
  rw [find?_of_mem hrows hrow]
  rfl

/-- An upsert that adds to the row of its key adds to what all rows hold together. -/
theorem upsert_flatMap_perm {β : Type} {part : α → List β} {added : List β}
    (hchange : ∀ row, key row = k → (part (change row)).Perm (part row ++ added))
    (hfresh : (part fresh).Perm added) (rows : List α) :
    ((upsert key k change fresh rows).flatMap part).Perm (rows.flatMap part ++ added) := by
  induction rows with
  | nil => simpa [upsert] using hfresh
  | cons head tail ih =>
    rw [upsert]
    by_cases hhead : key head = k
    · rw [if_pos hhead, List.flatMap_cons, List.flatMap_cons]
      calc (part (change head) ++ tail.flatMap part).Perm
            ((part head ++ added) ++ tail.flatMap part) := (hchange head hhead).append_right _
        _ = part head ++ (added ++ tail.flatMap part) := List.append_assoc ..
        (part head ++ (added ++ tail.flatMap part)).Perm
            (part head ++ (tail.flatMap part ++ added)) :=
          List.perm_append_comm.append_left _
        _ = (part head ++ tail.flatMap part) ++ added := (List.append_assoc ..).symm
    · rw [if_neg hhead, List.flatMap_cons, List.flatMap_cons, List.append_assoc]
      exact ih.append_left _

/-- A merge only brings together what the rows of both lists hold. -/
theorem mergeOn_flatMap_perm {β : Type} {part : α → List β}
    (hjoin : ∀ row other, key row = key other →
      (part (join row other)).Perm (part row ++ part other)) {rows others : List α} :
    ((mergeOn key join rows others).flatMap part).Perm
      (rows.flatMap part ++ others.flatMap part) := by
  induction others generalizing rows with
  | nil => simp [mergeOn]
  | cons other rest ih =>
    rw [mergeOn_cons, List.flatMap_cons, ← List.append_assoc]
    have hone := upsert_flatMap_perm (fun row => hjoin row other) (.refl (part other)) rows
    exact ih.trans (hone.append_right _)

/-- A change of a row that no other of the merged rows meets may come before the merge. -/
theorem mergeOn_upsert_left (hjoin : ∀ row other, key (join row other) = key row)
    (hchange : ∀ row, key (change row) = key row) {rows others : List α}
    (hmem : k ∈ rows.map key) (hothers : k ∉ others.map key) :
    mergeOn key join (upsert key k change fresh rows) others =
      upsert key k change fresh (mergeOn key join rows others) := by
  induction others generalizing rows with
  | nil => rfl
  | cons other rest ih =>
    rw [List.map_cons, List.mem_cons, not_or] at hothers
    rw [mergeOn_cons, mergeOn_cons,
      upsert_comm (Ne.symm hothers.1) hchange (fun row => hjoin row other) hmem]
    exact ih (mem_keys_upsert (fun row hrow => (hjoin row other).trans hrow) rfl hmem) hothers.2

/-- A change of one of the merged rows may be made after the merge instead, when joining hands it
through. -/
theorem mergeOn_upsert (hjoin : ∀ row other, key (join row other) = key row)
    (hchange : ∀ row, key (change row) = key row) (hfresh : key fresh = k) {rows others : List α}
    (hothers : Distinct key others)
    (hthrough : ∀ row, ∀ other ∈ others, join row (change other) = change (join row other))
    (hnew : ∀ row, join row fresh = change row) :
    mergeOn key join rows (upsert key k change fresh others) =
      upsert key k change fresh (mergeOn key join rows others) := by
  induction others generalizing rows with
  | nil => simp [upsert, mergeOn, hfresh, hnew]
  | cons other rest ih =>
    rw [upsert]
    by_cases hother : key other = k
    · have hrest : k ∉ rest.map key := hother ▸ hothers.key_not_mem
      have hfirst : ∀ row, join row (change other) = change (join row other) := fun row =>
        hthrough row other List.mem_cons_self
      rw [if_pos hother, mergeOn_cons, mergeOn_cons, hchange, hother,
        ← mergeOn_upsert_left hjoin hchange
          (self_mem_keys_upsert (fun row hrow => (hjoin row other).trans hrow) hother rows) hrest,
        upsert_upsert (fun row => hjoin row other) hother]
      simp only [hfirst]
    · rw [if_neg hother, mergeOn_cons, mergeOn_cons]
      exact ih hothers.tail fun row later hlater =>
        hthrough row later (List.mem_cons_of_mem _ hlater)

/-- Merging may be grouped either way when joining may be. Joining needs this only for rows of a
kind that it does not lead out of. -/
theorem mergeOn_assoc {p : α → Prop} (hjoin : ∀ row other, key (join row other) = key row)
    (hkeeps : ∀ row other, p row → p other → p (join row other))
    (hassoc : ∀ first second third, p second → p third →
      join (join first second) third = join first (join second third))
    {rows others more : List α} (hdistinct : Distinct key others)
    (hothers : ∀ other ∈ others, p other) (hmore : ∀ next ∈ more, p next) :
    mergeOn key join (mergeOn key join rows others) more =
      mergeOn key join rows (mergeOn key join others more) := by
  induction more generalizing others with
  | nil => rfl
  | cons next rest ih =>
    obtain ⟨hnext, hrest⟩ := List.forall_mem_cons.mp hmore
    have hthrough : ∀ row, ∀ other ∈ others,
        join row (join other next) = join (join row other) next := fun row other hother =>
      (hassoc row other next (hothers other hother) hnext).symm
    have hstep : mergeOn key join rows (upsert key (key next) (join · next) next others) =
        upsert key (key next) (join · next) next (mergeOn key join rows others) :=
      mergeOn_upsert hjoin (fun row => hjoin row next) rfl hdistinct hthrough fun _ => rfl
    rw [mergeOn_cons, mergeOn_cons, ← hstep]
    apply ih _ _ hrest
    · exact distinct_upsert (fun row hrow => (hjoin row next).trans hrow) rfl hdistinct
    · exact forall_mem_upsert hothers (fun row hrow _ => hkeeps row next (hothers row hrow) hnext)
        hnext

theorem mergeOn_assoc_of_assoc (hjoin : ∀ row other, key (join row other) = key row)
    (hassoc : ∀ first second third, join (join first second) third = join first (join second third))
    {rows others : List α} (hdistinct : Distinct key others) (more : List α) :
    mergeOn key join (mergeOn key join rows others) more =
      mergeOn key join rows (mergeOn key join others more) :=
  mergeOn_assoc (p := fun _ => True) hjoin (fun _ _ _ _ => trivial)
    (fun first second third _ _ => hassoc first second third) hdistinct (fun _ _ => trivial)
    (fun _ _ => trivial)

/-- Rows of new keys stand behind as they are. -/
theorem mergeOn_of_distinct {rows others : List α} (h : Distinct key (rows ++ others)) :
    mergeOn key join rows others = rows ++ others := by
  induction others generalizing rows with
  | nil => exact (List.append_nil rows).symm
  | cons other rest ih =>
    have hnew : key other ∉ rows.map key := by
      intro hmem
      rw [Distinct, List.map_append, List.nodup_append] at h
      exact h.2.2 _ hmem _ List.mem_cons_self rfl
    have hnext : Distinct key (rows ++ [other] ++ rest) := by rwa [List.append_assoc]
    rw [mergeOn_cons, upsert_of_not_mem hnew, ih hnext, List.append_assoc]
    rfl

end CompiledResources.Keyed
