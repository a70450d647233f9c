import CompiledResources.Proofs.IdText
import CompiledResources.Proofs.Visits
import CompiledResources.Rendering

/-!
Resources on lines. The text of a value has no line break: quoted text is escaped, record names are
numerals, and nothing else comes from the table. The name of a resource is written as it is, so the
line breaks in the text of a resource are those of its name.
-/

namespace CompiledResources

open Decoder

/-! ### Line breaks -/

namespace Text

/-- The units that end a line. -/
def isLineBreak (u : UInt16) : Bool := u == 0x000A || u == 0x000D

/-- The line breaks of a text, in order. -/
def lineBreaks (t : Text) : List UInt16 := t.units.filter isLineBreak

@[simp] theorem lineBreaks_append (a b : Text) :
    (a ++ b).lineBreaks = a.lineBreaks ++ b.lineBreaks := by
  simp [lineBreaks]

theorem isLineBreak_eq_false_iff {u : UInt16} :
    isLineBreak u = false ↔ u.toNat ≠ 0x000A ∧ u.toNat ≠ 0x000D := by
  simp [isLineBreak, ← UInt16.toNat_inj]

/-- The character does not end a line. -/
def Inline (c : Char) : Prop := c ≠ '\n' ∧ c ≠ '\r'

instance (c : Char) : Decidable (Inline c) := inferInstanceAs (Decidable (_ ∧ _))

theorem isLineBreak_unitsOfChar {c : Char} (h : Inline c) :
    ∀ u ∈ unitsOfChar c, isLineBreak u = false := by
  have hfeed : c.toNat ≠ 0x000A := fun heq => h.1 (Char.toNat_inj.mp heq)
  have hreturn : c.toNat ≠ 0x000D := fun heq => h.2 (Char.toNat_inj.mp heq)
  intro u hu
  rw [isLineBreak_eq_false_iff]
  unfold unitsOfChar at hu
  split at hu
  · obtain rfl := List.mem_singleton.mp hu
    rw [UInt16.toNat_ofNat']
    omega
  · have hvalid : c.toNat < 0x110000 := by
      have := c.valid
      simp only [UInt32.isValidChar, Nat.isValidChar] at this
      change c.val.toNat < 0x110000
      omega
    rcases List.mem_cons.mp hu with rfl | hu
    · rw [UInt16.toNat_ofNat']
      omega
    · obtain rfl := List.mem_singleton.mp hu
      rw [UInt16.toNat_ofNat']
      omega

theorem lineBreaks_ofChars {cs : List Char} (h : ∀ c ∈ cs, Inline c) :
    (ofChars cs).lineBreaks = [] := by
  rw [lineBreaks, List.filter_eq_nil_iff, units_ofChars]
  intro u hu
  obtain ⟨c, hc, hu⟩ := List.mem_flatMap.mp hu
  simpa using isLineBreak_unitsOfChar (h c hc) u hu

theorem lineBreaks_join {separator : Text} (hseparator : separator.lineBreaks = [])
    {texts : List Text} (h : ∀ t ∈ texts, t.lineBreaks = []) :
    (join separator texts).lineBreaks = [] := by
  fun_induction join separator texts with
  | case1 => rfl
  | case2 t => exact h t List.mem_cons_self
  | case3 t rest hrest ih =>
    obtain ⟨hhead, htail⟩ := List.forall_mem_cons.mp h
    rw [lineBreaks_append, lineBreaks_append, hhead, hseparator, ih htail]
    rfl

theorem inline_digitChar {digit : Nat} (h : digit < 16) : Inline digit.digitChar := by
  have hdigits : ∀ digit < 16, Inline digit.digitChar := by decide
  exact hdigits digit h

/-- No line break is left in the written form of a unit: both have an escape with a letter. -/
theorem isLineBreak_quoteUnit (u : UInt16) : ∀ v ∈ quoteUnit u, isLineBreak v = false := by
  have hescaped {cs : List Char} (hcs : ∀ c ∈ cs, Inline c) :
      ∀ v ∈ cs.flatMap unitsOfChar, isLineBreak v = false := by
    intro v hv
    obtain ⟨c, hc, hv⟩ := List.mem_flatMap.mp hv
    exact isLineBreak_unitsOfChar (hcs c hc) v hv
  unfold quoteUnit
  cases hletter : letterEscape? u with
  | some c =>
    have hletter : Inline c := by
      unfold letterEscape? at hletter
      split at hletter <;> cases hletter <;> decide
    exact hescaped (List.forall_mem_cons.mpr
      ⟨by decide, List.forall_mem_cons.mpr ⟨hletter, List.forall_mem_nil _⟩⟩)
  | none =>
    dsimp only
    split
    · refine hescaped ?_
      simp only [numericEscape, List.forall_mem_cons]
      have hdigit (unit : Nat) : Inline (Nat.digitChar (u.toNat / unit % 16)) :=
        inline_digitChar (Nat.mod_lt _ (by decide))
      exact ⟨by decide, by decide, hdigit _, hdigit _, hdigit _, hdigit _, List.forall_mem_nil _⟩
    · intro v hv
      obtain rfl := List.mem_singleton.mp hv
      rw [isLineBreak_eq_false_iff]
      constructor <;> intro heq <;> simp [letterEscape?, heq] at hletter

/-- Quoted text has no line break. -/
theorem lineBreaks_quoted (t : Text) : t.quoted.lineBreaks = [] := by
  have hunits (units : List UInt16) : ∀ v ∈ quoteUnits units, isLineBreak v = false := by
    fun_induction quoteUnits units with
    | case1 => exact fun v hv => nomatch hv
    | case2 u => exact isLineBreak_quoteUnit u
    | case3 u v rest hpair ih =>
      rw [Bool.and_eq_true] at hpair
      have hsurrogate (w : UInt16) (hw : isHigh w = true ∨ isLow w = true) :
          isLineBreak w = false := by
        rw [isLineBreak_eq_false_iff]
        simp only [isHigh, isLow, Bool.and_eq_true, decide_eq_true_eq, UInt16.le_iff_toNat_le,
          UInt16.reduceToNat] at hw
        omega
      exact List.forall_mem_cons.mpr ⟨hsurrogate u (.inl hpair.1),
        List.forall_mem_cons.mpr ⟨hsurrogate v (.inr hpair.2), ih⟩⟩
    | case4 u v rest hpair ih => exact List.forall_mem_append.mpr ⟨isLineBreak_quoteUnit u, ih⟩
  have hinside : (⟨quoteUnits t.units⟩ : Text).lineBreaks = [] :=
    List.filter_eq_nil_iff.mpr fun v hv => by simpa using hunits t.units v hv
  have hquote : (("\"" : String) : Text).lineBreaks = [] := by decide
  rw [quoted, lineBreaks_append, lineBreaks_append, hinside, hquote]
  rfl

end Text

/-! ### Numerals -/

namespace Numeral

theorem inline_toDigits {base : Nat} (hbase : 1 < base) (hdigits : base ≤ 16) (n : Nat) :
    ∀ c ∈ base.toDigits n, Text.Inline c := by
  obtain ⟨digits, hchars, hlt, -⟩ := exists_toDigits hbase n
  rw [hchars]
  intro c hc
  obtain ⟨digit, hdigit, rfl⟩ := List.mem_map.mp hc
  exact Text.inline_digitChar (Nat.lt_of_lt_of_le (hlt digit hdigit) hdigits)

theorem lineBreaks_decimal (n : Int) : (decimal n).lineBreaks = [] := by
  have hnat (n : Nat) : (ofNat 10 n).lineBreaks = [] :=
    Text.lineBreaks_ofChars (inline_toDigits (by decide) (by decide) n)
  have hminus : (("-" : String) : Text).lineBreaks = [] := by decide
  cases n with
  | ofNat n => exact hnat n
  | negSucc n => rw [decimal, ofInt, Text.lineBreaks_append, hminus, hnat]; rfl

theorem lineBreaks_hexPadded (width n : Nat) : (hexPadded width n).lineBreaks = [] := by
  refine Text.lineBreaks_ofChars (List.forall_mem_append.mpr ⟨fun c hc => ?_, ?_⟩)
  · rw [List.eq_of_mem_replicate hc]
    decide
  · exact inline_toDigits (by decide) (by decide) n

end Numeral

namespace Binary64

/-- Digits are laid out with zeros, a point, a sign, an exponent mark and digits. -/
theorem inline_layOut (style : Style) {digits : List Char} (h : ∀ c ∈ digits, Text.Inline c)
    (point : Int) : ∀ c ∈ layOut style digits point, Text.Inline c := by
  have hzeros (n : Nat) : ∀ c ∈ List.replicate n '0', Text.Inline c := by
    intro c hc
    rw [List.eq_of_mem_replicate hc]
    decide
  have hpower (n : Nat) := Numeral.inline_toDigits (by decide : 1 < 10) (by decide) n
  have hpoint : Text.Inline '.' := by decide
  have hmark : Text.Inline 'e' := by decide
  unfold layOut
  dsimp only
  split
  · split
    · exact List.forall_mem_append.mpr ⟨h, hzeros _⟩
    · exact List.forall_mem_append.mpr ⟨fun c hc => h c (List.mem_of_mem_take hc),
        List.forall_mem_cons.mpr ⟨hpoint, fun c hc => h c (List.mem_of_mem_drop hc)⟩⟩
  · split
    · exact List.forall_mem_cons.mpr ⟨by decide, List.forall_mem_cons.mpr
        ⟨hpoint, List.forall_mem_append.mpr ⟨hzeros _, h⟩⟩⟩
    · have hwritten (power : Int) :
          ∀ c ∈ (if 0 ≤ power then '+' else '-') :: Nat.toDigits 10 power.natAbs,
            Text.Inline c :=
        List.forall_mem_cons.mpr ⟨by split <;> decide, hpower power.natAbs⟩
      split
      · exact fun c hc => nomatch hc
      · rw [List.forall_mem_cons] at h
        exact List.forall_mem_cons.mpr ⟨h.1, List.forall_mem_cons.mpr ⟨hmark, hwritten _⟩⟩
      · rw [List.forall_mem_cons] at h
        exact List.forall_mem_cons.mpr ⟨h.1, List.forall_mem_cons.mpr ⟨hpoint,
          List.forall_mem_append.mpr ⟨h.2, List.forall_mem_cons.mpr ⟨hmark, hwritten _⟩⟩⟩⟩

theorem lineBreaks_toText (x : Binary64) : x.toText.lineBreaks = [] := by
  unfold toText
  split
  · decide
  · split <;> decide
  · split
    · decide
    · refine Text.lineBreaks_ofChars ?_
      have hdigits (s : Scientific) : ∀ c ∈ s.significant, Text.Inline c := by
        intro c hc
        rw [Scientific.significant, List.mem_reverse] at hc
        have hmem := List.mem_reverse.mp ((List.dropWhile_sublist _).mem hc)
        exact Numeral.inline_toDigits (by decide) (by decide) _ c hmem
      split
      · exact List.forall_mem_cons.mpr ⟨by decide, inline_layOut style (hdigits _) _⟩
      · exact inline_layOut style (hdigits _) _

end Binary64

/-! ### Values -/

theorem ResourceId.lineBreaks_toText (id : Int) : (toText id).lineBreaks = [] := by
  have hmark : (("0x" : String) : Text).lineBreaks = [] := by decide
  rw [toText, Text.lineBreaks_append, hmark, Numeral.lineBreaks_hexPadded]
  rfl

namespace Value

/-- The value has no parts. -/
def isScalar : Value → Bool
  | .array _ | .complex _ _ => false
  | _ => true

/-- No name of a record in the value has a line break, however deep the record is. -/
inductive Inline : Value → Prop where
  | scalar {value : Value} (hscalar : value.isScalar = true) : Inline value
  | array {elements : List Value} (helements : ∀ element ∈ elements, Inline element) :
      Inline (.array elements)
  | complex {typeName : Text} {records : List (Text × Value)}
      (hnames : ∀ record ∈ records, record.1.lineBreaks = [])
      (hvalues : ∀ record ∈ records, Inline record.2) : Inline (.complex typeName records)

theorem lineBreaks_scalar :
    ∀ {value : Value}, value.isScalar = true → value.render.lineBreaks = []
  | .null, _ => by decide
  | .reference id, _ => by
    rw [render, Text.lineBreaks_append, ResourceId.lineBreaks_toText]
    decide
  | .attribute id, _ => by
    rw [render, Text.lineBreaks_append, ResourceId.lineBreaks_toText]
    decide
  | .string none, _ => by decide
  | .string (some text), _ => text.lineBreaks_quoted
  | .integer value, _ => Numeral.lineBreaks_decimal value
  | .float value, _ => value.lineBreaks_toText
  | .boolean value, _ => by cases value <;> decide
  | .color alpha red green blue, _ => by
    simp only [render, channel, Text.lineBreaks_append, Numeral.lineBreaks_hexPadded]
    decide
  | .dimension value unit, _ => by
    rw [render, Text.lineBreaks_append, value.lineBreaks_toText]
    cases unit <;> decide
  | .fraction value base, _ => by
    rw [render, Text.lineBreaks_append, (value.scale 100).lineBreaks_toText]
    cases base <;> decide

theorem renderElements_eq (elements : List Value) :
    renderElements elements = elements.map render := by
  induction elements with
  | nil => rfl
  | cons value rest ih => rw [renderElements, ih, List.map_cons]

theorem renderRecords_eq (records : List (Text × Value)) :
    renderRecords records =
      records.map fun record => (record.1 ++ ("=" : String) ++ record.2.render : Text) := by
  induction records with
  | nil => rfl
  | cons record rest ih => rw [renderRecords, ih, List.map_cons]

/-- The text of a value has no line break but those of record names. -/
theorem Inline.lineBreaks_render {value : Value} (h : value.Inline) :
    value.render.lineBreaks = [] := by
  have hlisted {texts : List Text} (htexts : ∀ t ∈ texts, t.lineBreaks = []) :
      (listed texts).lineBreaks = [] := Text.lineBreaks_join (by decide) htexts
  induction h with
  | scalar hscalar => exact lineBreaks_scalar hscalar
  | array helements ih =>
    rw [render, renderElements_eq, Text.lineBreaks_append, Text.lineBreaks_append, hlisted]
    · decide
    · exact List.forall_mem_map.mpr ih
  | complex hnames hvalues ih =>
    rw [render, renderRecords_eq, Text.lineBreaks_append, Text.lineBreaks_append, hlisted]
    · decide
    · refine List.forall_mem_map.mpr fun record hrecord => ?_
      rw [Text.lineBreaks_append, Text.lineBreaks_append, hnames record hrecord,
        ih record hrecord]
      decide

end Value

/-- The line breaks in the text of a resource are those of its name and of its value. -/
theorem Resource.lineBreaks_render (resource : Resource) :
    resource.render.lineBreaks = resource.name.lineBreaks ++ resource.value.render.lineBreaks := by
  have hspace : ((" " : String) : Text).lineBreaks = [] := by decide
  have hequals : ((" = " : String) : Text).lineBreaks = [] := by decide
  rw [render]
  simp only [Text.lineBreaks_append, ResourceId.lineBreaks_toText, hspace, hequals,
    List.nil_append, List.append_nil]

/-! ### Decoded values -/

theorem Value.inline_decode {strings : Int → Option Text} {code word : Int} {value : Value}
    (h : Value.decode strings code word = .ok value) : value.Inline := by
  refine .scalar ?_
  unfold Value.decode at h
  split at h
  case h_6 =>
    -- a dimension, which needs a known unit
    split at h
    · cases h
      rfl
    · cases h
  all_goals cases h <;> rfl

/-- All names in the bag are without line breaks, and so are the names in its values. -/
def Bag.Inline (bag : Bag) : Prop :=
  ∀ pair ∈ bag, pair.1.lineBreaks = [] ∧ pair.2.value.Inline

namespace Bag

theorem Inline.put {bag : Bag} (h : bag.Inline) {name : Text} (hname : name.lineBreaks = [])
    {slot : Slot} (hslot : slot.value.Inline) : Inline (OrderedMap.put bag name slot) :=
  Keyed.forall_mem_upsert h (fun _ _ _ => ⟨hname, hslot⟩) ⟨hname, hslot⟩

/-- Adding a value under a name without line breaks keeps all names without them. -/
theorem Inline.add {bag : Bag} (h : bag.Inline) (typeName : Text) {name : Text}
    (hname : name.lineBreaks = []) {value : Value} (hvalue : value.Inline) :
    (bag.add typeName name value).Inline := by
  unfold Bag.add
  split
  · exact h.put hname (.array (by simpa using hvalue))
  next strings _ hslot =>
    refine h.put hname (.array ?_)
    obtain ⟨pair, hfind, hpair⟩ := Option.map_eq_some_iff.mp hslot
    have hgathered := (h pair (Keyed.mem_of_find? hfind)).2
    rw [hpair] at hgathered
    cases hgathered with
    | scalar hscalar => cases hscalar
    | array helements => simpa [or_imp, forall_and, hvalue] using helements
  · exact h
  · exact h.put hname hvalue

theorem Inline.toValue {bag : Bag} (h : bag.Inline) (typeName : Text) :
    (bag.toValue typeName).Inline :=
  .complex (List.forall_mem_map.mpr fun pair hpair => (h pair hpair).1)
    (List.forall_mem_map.mpr fun pair hpair => (h pair hpair).2)

end Bag

namespace Entry

/-- The names of map records are numerals. -/
theorem ensures_inline_records (context : Entry.Context) (data : ByteArray) (offset : Int)
    (count index : Nat) {bag : Bag} (hbag : bag.Inline) :
    Ensures (readRecords context data offset count index bag) fun result =>
      ∀ final, result = .ok final → final.Inline := by
  induction count generalizing index bag with
  | zero =>
    refine .pure fun final hfinal => ?_
    cases hfinal
    exact hbag
  | succ count ih =>
    refine .after fun name => .after fun found => ?_
    cases found with
    | none => exact .pure fun final hfinal => nomatch hfinal
    | some record =>
      cases hvalue : Value.decode context.strings record.code record.word with
      | ok value =>
        simp only [hvalue]
        exact ih _ (hbag.add _ (Numeral.lineBreaks_decimal name) (Value.inline_decode hvalue))
      | error refusal =>
        simp only [hvalue]
        exact .after fun _ => ih _ hbag

theorem ensures_inline (context : Entry.Context) (data : ByteArray) (header : EntryHeader)
    (offset : Int) :
    Ensures (readValue context data header offset) fun result =>
      ∀ value, result = .ok value → value.Inline := by
  have hempty : Bag.Inline [] := fun pair hpair => nomatch hpair
  refine .ite (.bind (ensures_inline_records context data offset _ 0 hempty)
    fun result hresult => ?_) (.after fun found => ?_)
  · cases result with
    | error refusal => exact .pure fun value hvalue => nomatch hvalue
    | ok bag =>
      refine .pure fun value hvalue => ?_
      cases hvalue
      exact (hresult bag rfl).toValue _
  · cases found with
    | none => exact .pure fun value hvalue => nomatch hvalue
    | some record => exact .pure fun value hvalue => Value.inline_decode hvalue

end Entry

/-- One line for each resource, unless its name takes more. In the text of every resource of a table
that is decoded, the value has no line break, however deep its parts are and whatever the global
strings are, and the line breaks of the whole text are those of the name. -/
theorem Contents.lineBreaks_of_decode {data : ByteArray} {policy : Policy} {contents : Contents}
    {after : Journal} (h : (Contents.decode data).run policy = (.ok contents, after)) :
    ∀ resource ∈ contents.resources,
      resource.value.render.lineBreaks = [] ∧
        resource.render.lineBreaks = resource.name.lineBreaks := by
  intro resource hresource
  obtain ⟨scope, typeId, place, halone⟩ := Contents.exists_entry_of_decode h resource hresource
  have hvalue : resource.value.render.lineBreaks = [] := by
    cases halone with
    | @stored header value hfits hheader hread =>
      exact ((Entry.ensures_inline _ _ _ _).of_outcome hread value rfl).lineBreaks_render
  exact ⟨hvalue, by rw [resource.lineBreaks_render, hvalue, List.append_nil]⟩

/-! ### A name on two lines -/

/-- A table with a resource whose name is on two lines, and one whose string value is. -/
def Layout.TablePlan.twoLines : Layout.TablePlan :=
  let group : Layout.TypePlan := {
    id := 1, slots := 2
    entries := [
      { number := 0, key := 0, body := .simple ⟨0x10, 5⟩ },
      { number := 1, key := 1, body := .simple ⟨0x03, 0⟩ }] }
  { strings := ["x\ny"]
    chunks := [.package {
      id := 127, name := "app", typeNames := ["string"], keyNames := ["a\nb", "c"]
      nested := [.typeSpec 1 2, .entries group] }] }

theorem Layout.TablePlan.exists_decode_twoLines :
    ∃ contents after,
      (Contents.decode ⟨Layout.TablePlan.twoLines.bytes.toArray⟩).run .strict =
        (.ok contents, after) ∧
      contents.resources.map (fun resource => (resource.name, resource.render)) =
        ([("a\nb", "0x7f010000 a\nb = 5"), ("c", "0x7f010001 c = \"x\\ny\"")] :
          List (Text × Text)) := by
  have hplan : Layout.TablePlan.twoLines.Storable := by decide +kernel
  obtain ⟨after, hrun⟩ := Contents.exists_run_decode hplan .strict
  exact ⟨_, after, hrun, by decide +kernel⟩

theorem Contents.lineBreaks_of_decode_twoLines :
    let data : ByteArray := ⟨Layout.TablePlan.twoLines.bytes.toArray⟩
    ∃ contents after, (Contents.decode data).run .strict = (.ok contents, after) ∧
      contents.resources.map Resource.name = (["a\nb", "c"] : List Text) ∧
      ∀ resource ∈ contents.resources,
        resource.value.render.lineBreaks = [] ∧
          resource.render.lineBreaks = resource.name.lineBreaks := by
  intro data
  obtain ⟨contents, after, hrun, htexts⟩ := Layout.TablePlan.exists_decode_twoLines
  have hnames := congrArg (List.map Prod.fst) htexts
  rw [List.map_map] at hnames
  exact ⟨contents, after, hrun, hnames, Contents.lineBreaks_of_decode hrun⟩

/-- The name of a resource may put its text on two lines. -/
theorem Contents.exists_lineBreaks_ne_nil :
    let data : ByteArray := ⟨Layout.TablePlan.twoLines.bytes.toArray⟩
    ∃ contents after, (Contents.decode data).run .strict = (.ok contents, after) ∧
      ∃ resource ∈ contents.resources,
        resource.render = ("0x7f010000 a\nb = 5" : String) ∧
          resource.render.lineBreaks = [0x000A] := by
  intro data
  obtain ⟨contents, after, hrun, htexts⟩ := Layout.TablePlan.exists_decode_twoLines
  obtain ⟨resource, _, hresources, htext, -⟩ := List.map_eq_cons_iff.mp htexts
  have hrender : resource.render = ("0x7f010000 a\nb = 5" : String) := congrArg Prod.snd htext
  have hmem : resource ∈ contents.resources := hresources ▸ List.mem_cons_self
  exact ⟨contents, after, hrun, resource, hmem, hrender, by rw [hrender]; decide⟩

end CompiledResources
