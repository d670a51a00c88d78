import SourceMetrics.Proofs.Json.Layout
import SourceMetrics.Proofs.Json.Structure

/-! # Records and summaries in any layout

* `LineCounts.ofJson?_of_isGiven`, `Record.ofJson?_of_isGiven`, …: each structure is read from
  whatever value gives its fields.
* `Record.ofJson?_of_isBroken`, `Summary.ofJson?_of_isBroken`: nothing is read where a field is
  repeated or lacking, also in a structure inside.
* `decoding_ignores_layout`: both, for the texts of these values in any layout. -/

namespace SourceMetrics

set_option autoImplicit false

open Json

variable {value : Json}

/-- The values that give a double: the one it is written as, and any other number read as it. -/
def Json.IsFloat (x : Float) (value : Json) : Prop :=
  value = ofFloat x ∨ ∃ numeral : Numeral, value = .number numeral ∧ numeral.toFloat? = some x

theorem Json.toFloat?_of_isFloat {x : Float} (hx : IsReadBack x) (h : IsFloat x value) :
    value.toFloat? = some x := by
  obtain rfl | ⟨numeral, rfl, hread⟩ := h
  · exact toFloat?_ofFloat hx
  · exact hread

/-! ## Line counts and duplication -/

/-- The values that give line counts. Each count is given by the number it is written as. -/
def LineCounts.IsGiven (lines : LineCounts) : Json → Prop :=
  Gives (fieldNames.zip
    [required (· = ofNat lines.total), required (· = ofNat lines.code),
      required (· = ofNat lines.comment), required (· = ofNat lines.blank)])

theorem LineCounts.ofJson?_of_isGiven {lines : LineCounts} (h : lines.Fits)
    (hgiven : lines.IsGiven value) : ofJson? value = some lines := by
  obtain ⟨found, hfields, hfound⟩ := hgiven.exists_fields?
  change value.fields? fieldNames = some found at hfields
  have hfound : found = [some (ofNat lines.total), some (ofNat lines.code),
      some (ofNat lines.comment), some (ofNat lines.blank)] := by
    simpa [fieldNames, List.forall₂_cons_left_iff, required_iff] using hfound
  rw [ofJson?, hfields, hfound]
  simp [toCount?_ofNat h.total, toCount?_ofNat h.code, toCount?_ofNat h.comment,
    toCount?_ofNat h.blank]

theorem LineCounts.ofJson?_of_breaks (h : Breaks fieldNames fieldNames value) :
    ofJson? value = none := by
  refine h.bind_eq_none (List.Subset.refl _) fun found name _ hmissing => ?_
  split
  · simp [fieldNames] at hmissing
  · rfl

def Duplication.IsGiven (duplication : Duplication) : Json → Prop :=
  Gives (fieldNames.zip
    [required (IsFloat duplication.percentage), required (· = ofNat duplication.duplicatedLines)])

theorem Duplication.ofJson?_of_isGiven {duplication : Duplication} (h : duplication.Fits)
    (hgiven : duplication.IsGiven value) : ofJson? value = some duplication := by
  obtain ⟨found, hfields, hfound⟩ := hgiven.exists_fields?
  change value.fields? fieldNames = some found at hfields
  obtain ⟨percentage, hpercentage, hfound⟩ : ∃ percentage,
      IsFloat duplication.percentage percentage ∧
      found = [some percentage, some (ofNat duplication.duplicatedLines)] := by
    simpa [fieldNames, List.forall₂_cons_left_iff, required_iff] using hfound
  rw [ofJson?, hfields, hfound]
  simp [toFloat?_of_isFloat h.percentage hpercentage, toCount?_ofNat h.duplicatedLines]

theorem Duplication.ofJson?_of_breaks (h : Breaks fieldNames fieldNames value) :
    ofJson? value = none := by
  refine h.bind_eq_none (List.Subset.refl _) fun found name _ hmissing => ?_
  split
  · simp [fieldNames] at hmissing
  · rfl

/-! ## Records -/

def Record.IsGiven (record : Record) : Json → Prop :=
  Gives (fieldNames.zip
    [required (· = ofString record.path), required record.lines.IsGiven,
      required (· = ofNat record.complexity), required (· = ofNat record.functions),
      required (· = ofNat record.classes), required record.duplication.IsGiven,
      required (· = ofStrings record.unusedVariables),
      required (· = ofStrings record.unusedImports), required (· = ofStrings record.typeIssues)])

theorem Record.ofJson?_of_isGiven {record : Record} (h : record.Fits)
    (hgiven : record.IsGiven value) : ofJson? value = some record := by
  obtain ⟨found, hfields, hfound⟩ := hgiven.exists_fields?
  change value.fields? fieldNames = some found at hfields
  obtain ⟨lines, duplication, ⟨hlines, hduplication⟩, hfound⟩ : ∃ lines duplication,
      (record.lines.IsGiven lines ∧ record.duplication.IsGiven duplication) ∧
      found = [some (ofString record.path), some lines, some (ofNat record.complexity),
        some (ofNat record.functions), some (ofNat record.classes), some duplication,
        some (ofStrings record.unusedVariables), some (ofStrings record.unusedImports),
        some (ofStrings record.typeIssues)] := by
    simpa [fieldNames, List.forall₂_cons_left_iff, required_iff] using hfound
  rw [ofJson?, hfields, hfound]
  simp [ofString, toText?, LineCounts.ofJson?_of_isGiven h.lines hlines,
    toNat?_ofNat h.complexity, toCount?_ofNat h.functions, toCount?_ofNat h.classes,
    Duplication.ofJson?_of_isGiven h.duplication hduplication, toTexts?_ofStrings]

/-- A value that repeats a field of a record or lacks one, itself or in a structure inside. -/
inductive Record.IsBroken : Json → Prop
  | fields {value : Json} : Breaks fieldNames fieldNames value → IsBroken value
  | lines {value inner : Json} : Contains fieldNames "lines" inner value →
      Breaks LineCounts.fieldNames LineCounts.fieldNames inner → IsBroken value
  | duplication {value inner : Json} : Contains fieldNames "duplication" inner value →
      Breaks Duplication.fieldNames Duplication.fieldNames inner → IsBroken value

theorem Record.ofJson?_of_isBroken (h : IsBroken value) : ofJson? value = none := by
  cases h with
  | fields hbreaks =>
    refine hbreaks.bind_eq_none (List.Subset.refl _) fun found name _ hmissing => ?_
    split
    · simp [fieldNames] at hmissing
    · rfl
  | @lines inner hcontains hbreaks =>
    refine hcontains.bind_eq_none (by decide) fun found hinner => ?_
    split
    · rename_i path lines complexity functions classes duplication unusedVariables unusedImports
        typeIssues
      obtain rfl : inner = lines := by simpa [fieldNames] using hinner
      simp [LineCounts.ofJson?_of_breaks hbreaks]
    · rfl
  | @duplication inner hcontains hbreaks =>
    refine hcontains.bind_eq_none (by decide) fun found hinner => ?_
    split
    · rename_i path lines complexity functions classes duplication unusedVariables unusedImports
        typeIssues
      obtain rfl : inner = duplication := by simpa [fieldNames] using hinner
      simp [Duplication.ofJson?_of_breaks hbreaks]
    · rfl

/-! ## Summaries -/

def Hotspot.IsGiven (hotspot : Hotspot) : Json → Prop :=
  Gives (fieldNames.zip
    [required (· = ofString hotspot.path), required (· = ofNat hotspot.complexity)])

theorem Hotspot.ofJson?_of_isGiven {hotspot : Hotspot} (h : hotspot.complexity < Nat.pow 2 32)
    (hgiven : hotspot.IsGiven value) : ofJson? value = some hotspot := by
  obtain ⟨found, hfields, hfound⟩ := hgiven.exists_fields?
  change value.fields? fieldNames = some found at hfields
  have hfound : found = [some (ofString hotspot.path), some (ofNat hotspot.complexity)] := by
    simpa [fieldNames, List.forall₂_cons_left_iff, required_iff] using hfound
  rw [ofJson?, hfields, hfound]
  simp [ofString, toText?, toNat?_ofNat h]

theorem Hotspot.ofJson?_of_breaks (h : Breaks fieldNames fieldNames value) :
    ofJson? value = none := by
  refine h.bind_eq_none (List.Subset.refl _) fun found name _ hmissing => ?_
  split
  · simp [fieldNames] at hmissing
  · rfl

/-- A summary without a hotspot or a limit may leave it out. -/
def Summary.IsGiven (summary : Summary) : Json → Prop :=
  Gives (fieldNames.zip
    [required (· = ofNat summary.files), required (· = ofNat summary.totalLines),
      required (· = ofNat summary.codeLines), required (· = ofNat summary.commentLines),
      required (· = ofNat summary.blankLines), required (IsFloat summary.averageComplexity),
      possible Hotspot.IsGiven summary.hotspot, required (· = ofNat summary.unusedVariables),
      required (· = ofNat summary.unusedImports), required (· = ofNat summary.typeIssues),
      possible (fun limit value => value = ofNat limit) summary.limit,
      required (· = ofStrings summary.overLimit)])

theorem Summary.ofJson?_of_isGiven {summary : Summary} (h : summary.Fits)
    (hgiven : summary.IsGiven value) : ofJson? value = some summary := by
  obtain ⟨found, hfields, hfound⟩ := hgiven.exists_fields?
  change value.fields? fieldNames = some found at hfields
  obtain ⟨average, hotspot, limit, ⟨haverage, hhotspot, hlimit⟩, hfound⟩ : ∃ average hotspot limit,
      (IsFloat summary.averageComplexity average ∧
        possible Hotspot.IsGiven summary.hotspot hotspot ∧
        possible (fun limit value => value = ofNat limit) summary.limit limit) ∧
      found = [some (ofNat summary.files), some (ofNat summary.totalLines),
        some (ofNat summary.codeLines), some (ofNat summary.commentLines),
        some (ofNat summary.blankLines), some average, hotspot,
        some (ofNat summary.unusedVariables), some (ofNat summary.unusedImports),
        some (ofNat summary.typeIssues), limit, some (ofStrings summary.overLimit)] := by
    simpa [fieldNames, List.forall₂_cons_left_iff, required_iff] using hfound
  have hhotspot : optional? Hotspot.ofJson? hotspot = some summary.hotspot :=
    optional?_of_possible hhotspot fun spot hspot _ hgiven =>
      ⟨Hotspot.ofJson?_of_isGiven (h.hotspot spot hspot) hgiven, hgiven.ne_null⟩
  have hlimit : optional? (Json.toNat? (Nat.pow 2 32)) limit = some summary.limit := by
    refine optional?_of_possible hlimit fun bound hbound value hvalue => ?_
    rw [hvalue]
    exact ⟨toNat?_ofNat (h.limit bound hbound), nofun⟩
  rw [ofJson?, hfields, hfound]
  simp [toCount?_ofNat h.files, toCount?_ofNat h.totalLines, toCount?_ofNat h.codeLines,
    toCount?_ofNat h.commentLines, toCount?_ofNat h.blankLines,
    toFloat?_of_isFloat h.averageComplexity haverage, hhotspot, toCount?_ofNat h.unusedVariables,
    toCount?_ofNat h.unusedImports, toCount?_ofNat h.typeIssues, hlimit, toTexts?_ofStrings]

/-- The fields that a summary may leave out. -/
def Summary.optionalNames : List String :=
  ["hotspot", "maxComplexity"]

/-- A value that repeats a field of a summary or lacks one that it needs, or has a hotspot that
does. -/
inductive Summary.IsBroken : Json → Prop
  | fields {value : Json} :
      Breaks fieldNames (fieldNames.filter (· ∉ optionalNames)) value → IsBroken value
  | hotspot {value inner : Json} : Contains fieldNames "hotspot" inner value →
      Breaks Hotspot.fieldNames Hotspot.fieldNames inner → IsBroken value

theorem Summary.ofJson?_of_isBroken (h : IsBroken value) : ofJson? value = none := by
  cases h with
  | fields hbreaks =>
    refine hbreaks.bind_eq_none (List.filter_subset_self _) fun found name hname hmissing => ?_
    have hneeded : name ∉ optionalNames := by simpa using (List.mem_filter.mp hname).2
    split
    · rename_i files totalLines codeLines commentLines blankLines average hotspot unusedVariables
        unusedImports typeIssues limit overLimit
      obtain ⟨rfl, -⟩ | ⟨rfl, -⟩ :
          name = "hotspot" ∧ hotspot = none ∨ name = "maxComplexity" ∧ limit = none := by
        simpa [fieldNames, eq_comm] using hmissing
      · exact absurd (by decide) hneeded
      · exact absurd (by decide) hneeded
    · rfl
  | @hotspot inner hcontains hbreaks =>
    have hhotspot : optional? Hotspot.ofJson? (some inner) = none := by
      rw [optional?, Hotspot.ofJson?_of_breaks hbreaks]
      · rfl
      · exact hbreaks.ne_null
    refine hcontains.bind_eq_none (by decide) fun found hinner => ?_
    split
    · rename_i files totalLines codeLines commentLines blankLines average hotspot unusedVariables
        unusedImports typeIssues limit overLimit
      obtain rfl : some inner = hotspot := by simpa [fieldNames] using hinner
      simp [hhotspot]
    · rfl

/-! ## Texts -/

/-- **Reading a record or a summary does not depend on the layout.** It is read from every text of
a value that gives its fields, and nothing is read from a text of a value that repeats one or lacks
one it needs. -/
theorem decoding_ignores_layout :
    (∀ (record : Record) (value : Json) (text : List Char), record.Fits → record.IsGiven value →
      value.IsLaidOut text → (parse? text).bind Record.ofJson? = some record) ∧
    (∀ (summary : Summary) (value : Json) (text : List Char), summary.Fits →
      summary.IsGiven value → value.IsLaidOut text →
      (parse? text).bind Summary.ofJson? = some summary) ∧
    (∀ (value : Json) (text : List Char), Record.IsBroken value → value.IsLaidOut text →
      (parse? text).bind Record.ofJson? = none) ∧
    ∀ (value : Json) (text : List Char), Summary.IsBroken value → value.IsLaidOut text →
      (parse? text).bind Summary.ofJson? = none := by
  refine ⟨?_, ?_, ?_, ?_⟩
  · intro record value text hfits hgiven htext
    rw [parse?_of_layout htext, Option.bind_some, Record.ofJson?_of_isGiven hfits hgiven]
  · intro summary value text hfits hgiven htext
    rw [parse?_of_layout htext, Option.bind_some, Summary.ofJson?_of_isGiven hfits hgiven]
  · intro value text hbroken htext
    rw [parse?_of_layout htext, Option.bind_some, Record.ofJson?_of_isBroken hbroken]
  · intro value text hbroken htext
    rw [parse?_of_layout htext, Option.bind_some, Summary.ofJson?_of_isBroken hbroken]

/-- The fields of a structure in reverse, behind other members. -/
def mirrored (others : List (String × Json)) (names : List String) (found : List (Option Json)) :
    Json :=
  ofMembers (others ++ (entries names found).reverse)

theorem gives_mirrored {fields : List Json.Field} {others : List (String × Json)}
    {found : List (Option Json)} (hnames : (fields.map (·.1)).Nodup)
    (hothers : ∀ other ∈ others, other.1 ∉ fields.map (·.1)) (hfound : AllGiven fields found) :
    Gives fields (mirrored others (fields.map (·.1)) found) :=
  gives_of_perm hnames hfound hothers
    (List.perm_append_comm.trans ((List.reverse_perm _).append_right others))

theorem wellSpelt_mirrored {others : List (String × Json)} {names : List String}
    {found : List (Option Json)} (hothers : ∀ other ∈ others, other.2.WellSpelt)
    (hfound : ∀ held ∈ found, ∀ value ∈ held, value.WellSpelt) :
    (mirrored others names found).WellSpelt := by
  refine wellSpelt_ofEntries (List.forall_mem_append.mpr ⟨hothers, fun entry hentry => ?_⟩)
  obtain ⟨⟨name, held⟩, hmem, hheld⟩ := List.mem_filterMap.mp (List.mem_reverse.mp hentry)
  obtain ⟨value, hvalue, rfl⟩ := Option.map_eq_some_iff.mp hheld
  exact hfound held (List.of_mem_zip hmem).2 value hvalue

/-- A member whose name is no field's, though that of a member inside it is. -/
def stranger : List (String × Json) :=
  [("Lines", ofMembers [("lines", .array [.null, .bool true]), ("lines", ofString "\"")])]

theorem wellSpelt_stranger : ∀ other ∈ stranger, other.2.WellSpelt := by
  refine List.forall_mem_singleton.mpr (wellSpelt_ofEntries ?_)
  simp [WellSpelt.array, WellSpelt.null, WellSpelt.bool, WellSpelt.string, ofString]

/-- The fields of the escaped record, with its line counts as a list. -/
def escapedFields : List (Option Json) :=
  [some (ofString escapedRecord.path),
    some (.array [ofNat 18446744073709551615, ofNat 0, ofNat 1, ofNat 2]),
    some (ofNat 4294967295), some (ofNat 0), some (ofNat 18446744073709551615),
    some (mirrored stranger Duplication.fieldNames
      [some (ofFloat 33.33333333333333), some (ofNat 0)]),
    some (ofStrings ["", "\t"]), some (ofStrings []), some (ofStrings ["é"])]

/-- The fields of the summary without a limit, which is left out. -/
def unlimitedFields : List (Option Json) :=
  [some (ofNat 3), some (ofNat 18446744073709551615), some (ofNat 0), some (ofNat 1),
    some (ofNat 2), some (ofFloat 0.00000125),
    some (mirrored stranger Hotspot.fieldNames [some (ofString "\u0000"), some (ofNat 4294967295)]),
    some (ofNat 0), some (ofNat 0), some (ofNat 0), none, some (ofStrings [])]

theorem isGiven_escapedFields :
    escapedRecord.IsGiven (mirrored stranger Record.fieldNames escapedFields) := by
  have hlines : escapedRecord.lines.IsGiven
      (.array [ofNat 18446744073709551615, ofNat 0, ofNat 1, ofNat 2]) :=
    .array (.cons rfl (.cons rfl (.cons rfl (.cons rfl .nil))))
  have hduplication : escapedRecord.duplication.IsGiven (mirrored stranger Duplication.fieldNames
      [some (ofFloat 33.33333333333333), some (ofNat 0)]) :=
    gives_mirrored (by decide) (by decide) (.cons (.inl rfl) (.cons rfl .nil))
  exact gives_mirrored (by decide) (by decide) (.cons rfl (.cons hlines (.cons rfl (.cons rfl
    (.cons rfl (.cons hduplication (.cons rfl (.cons rfl (.cons rfl .nil)))))))))

theorem isGiven_unlimitedFields :
    unlimitedSummary.IsGiven (mirrored stranger Summary.fieldNames unlimitedFields) := by
  have hhotspot : Hotspot.IsGiven ⟨"\u0000", 4294967295⟩ (mirrored stranger Hotspot.fieldNames
      [some (ofString "\u0000"), some (ofNat 4294967295)]) :=
    gives_mirrored (by decide) (by decide) (.cons rfl (.cons rfl .nil))
  exact gives_mirrored (by decide) (by decide) (.cons rfl (.cons rfl (.cons rfl (.cons rfl
    (.cons rfl (.cons (.inl rfl) (.cons hhotspot (.cons rfl (.cons rfl (.cons rfl (.cons trivial
    (.cons rfl .nil))))))))))))

theorem wellSpelt_escapedFields : ∀ held ∈ escapedFields, ∀ value ∈ held, value.WellSpelt := by
  have hduplication : (mirrored stranger Duplication.fieldNames
      [some (ofFloat 33.33333333333333), some (ofNat 0)]).WellSpelt :=
    wellSpelt_mirrored wellSpelt_stranger (by simp [wellSpelt_ofFloat, wellSpelt_ofNat])
  simp [escapedFields, ofString, WellSpelt.string, WellSpelt.array, wellSpelt_ofNat,
    wellSpelt_ofStrings, hduplication]

theorem wellSpelt_unlimitedFields :
    ∀ held ∈ unlimitedFields, ∀ value ∈ held, value.WellSpelt := by
  have hhotspot : (mirrored stranger Hotspot.fieldNames
      [some (ofString "\u0000"), some (ofNat 4294967295)]).WellSpelt :=
    wellSpelt_mirrored wellSpelt_stranger
      (by simp [ofString, WellSpelt.string, wellSpelt_ofNat])
  simp [unlimitedFields, wellSpelt_ofNat, wellSpelt_ofFloat, wellSpelt_ofStrings, hhotspot]

/-- A text of a value with every kind of blank in front of each token. -/
def scattered (value : Json) : List Char :=
  spread [' ', '\t', '\n', '\r'] value.tokens

theorem isLaidOut_scattered {others : List (String × Json)} {names : List String}
    {found : List (Option Json)} (hothers : ∀ other ∈ others, other.2.WellSpelt)
    (hfound : ∀ held ∈ found, ∀ value ∈ held, value.WellSpelt) :
    (mirrored others names found).IsLaidOut (scattered (mirrored others names found)) :=
  isLaidOut_spread (wellSpelt_mirrored hothers hfound) (by simp [Token.IsBlank])

/-- The escaped record and the summary without a limit are read, but not the record where its line
counts come twice, and not the summary without its first field. -/
theorem decoding_ignores_layout_mirrored :
    let record := mirrored stranger Record.fieldNames escapedFields
    let summary := mirrored stranger Summary.fieldNames unlimitedFields
    let repeated := mirrored [("lines", .null)] Record.fieldNames escapedFields
    let lacking := mirrored stranger Summary.fieldNames (none :: unlimitedFields.tail)
    (escapedRecord.Fits ∧ escapedRecord.IsGiven record ∧ record.IsLaidOut (scattered record) ∧
      (parse? (scattered record)).bind Record.ofJson? = some escapedRecord) ∧
    (unlimitedSummary.Fits ∧ unlimitedSummary.IsGiven summary ∧
      summary.IsLaidOut (scattered summary) ∧
      (parse? (scattered summary)).bind Summary.ofJson? = some unlimitedSummary) ∧
    (Record.IsBroken repeated ∧ repeated.IsLaidOut (scattered repeated) ∧
      (parse? (scattered repeated)).bind Record.ofJson? = none) ∧
    Summary.IsBroken lacking ∧ lacking.IsLaidOut (scattered lacking) ∧
      (parse? (scattered lacking)).bind Summary.ofJson? = none := by
  intro record summary repeated lacking
  have hrepeated : Record.IsBroken repeated := by
    refine .fields ?_
    change Breaks _ _ (.object ([] ++ (some "lines", Json.null) :: [_, _, _, _, _, _, _] ++
      (some "lines", _) :: [_]))
    exact .repeated (by decide)
  have hlacking : Summary.IsBroken lacking :=
    .fields (@Breaks.missing _ _ _ "files" (by decide) (by decide))
  have hrecordText : record.IsLaidOut (scattered record) :=
    isLaidOut_scattered wellSpelt_stranger wellSpelt_escapedFields
  have hsummaryText : summary.IsLaidOut (scattered summary) :=
    isLaidOut_scattered wellSpelt_stranger wellSpelt_unlimitedFields
  have hrepeatedText : repeated.IsLaidOut (scattered repeated) :=
    isLaidOut_scattered (List.forall_mem_singleton.mpr .null) wellSpelt_escapedFields
  have hlackingText : lacking.IsLaidOut (scattered lacking) :=
    isLaidOut_scattered wellSpelt_stranger (List.forall_mem_cons.mpr ⟨nofun, fun held hheld =>
      wellSpelt_unlimitedFields held (List.mem_of_mem_tail hheld)⟩)
  obtain ⟨hreadRecord, hreadSummary, hnoRecord, hnoSummary⟩ := decoding_ignores_layout
  exact ⟨⟨fits_escapedRecord, isGiven_escapedFields, hrecordText,
      hreadRecord _ _ _ fits_escapedRecord isGiven_escapedFields hrecordText⟩,
    ⟨fits_unlimitedSummary, isGiven_unlimitedFields, hsummaryText,
      hreadSummary _ _ _ fits_unlimitedSummary isGiven_unlimitedFields hsummaryText⟩,
    ⟨hrepeated, hrepeatedText, hnoRecord _ _ hrepeated hrepeatedText⟩,
    hlacking, hlackingText, hnoSummary _ _ hlacking hlackingText⟩

end SourceMetrics
