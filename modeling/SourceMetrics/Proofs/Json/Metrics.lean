import SourceMetrics.Json.Metrics
import SourceMetrics.Proofs.Json.Parser

/-! # Records and summaries that are read back

* `fields?_ofMembers`: a structure is taken apart into the fields it was put together from.
* `LineCounts.ofJson?_toJson`, `Record.ofJson?_toJson`, …: each structure is read back from its
  value. Its counts must fit their widths, and its doubles be read back from their decimals.
* `ofJson?_parse?_render`: records and summaries are read back from their texts. -/

namespace SourceMetrics

set_option autoImplicit false

open Json (ofMembers ofNat ofString ofStrings ofFloat)

namespace Json

/-! ## Fields -/

section Fields

variable {name other : String} {value : Json} {members : List (Option String × Json)}

theorem member?_cons_of_ne (h : other ≠ name) :
    member? ((some other, value) :: members) name = member? members name := by
  have hother : (some other == some name) = false := by simp [h]
  rw [member?, List.filter_cons_of_neg (by simp [hother]), member?]

theorem member?_cons_self (h : ∀ member ∈ members, member.1 ≠ some name) :
    member? ((some name, value) :: members) name = some (some value) := by
  have hnone : members.filter (fun entry => entry.1 == some name) = [] :=
    List.filter_eq_nil_iff.mpr fun member hmember => by simp [h member hmember]
  rw [member?, List.filter_cons_of_pos (by simp), hnone]

/-- Where no name is given twice, each member is found by its name. -/
theorem member?_of_mem {entries : List (String × Json)} (hnames : (entries.map Prod.fst).Nodup)
    {entry : String × Json} (hentry : entry ∈ entries) :
    member? (entries.map fun entry => (some entry.1, entry.2)) entry.1 = some (some entry.2) := by
  induction entries with
  | nil => cases hentry
  | cons first entries ih =>
    rw [List.map_cons, List.nodup_cons] at hnames
    obtain ⟨hfirst, hnames⟩ := hnames
    rw [List.map_cons]
    obtain rfl | hentry := List.mem_cons.mp hentry
    · refine member?_cons_self fun member hmember => ?_
      obtain ⟨other, hother, rfl⟩ := List.mem_map.mp hmember
      rintro hsame
      exact hfirst (Option.some.inj hsame ▸ List.mem_map_of_mem hother)
    · have hne : first.1 ≠ entry.1 := fun hsame => hfirst (hsame ▸ List.mem_map_of_mem hentry)
      rw [member?_cons_of_ne hne, ih hnames hentry]

theorem mapM_member? {names : List String} {values : List Json}
    (hlength : values.length = names.length)
    (h : ∀ entry ∈ names.zip values, member? members entry.1 = some (some entry.2)) :
    names.mapM (member? members) = some (values.map some) := by
  induction names generalizing values with
  | nil =>
    obtain rfl := List.eq_nil_of_length_eq_zero hlength
    rfl
  | cons name names ih =>
    obtain _ | ⟨value, values⟩ := values
    · cases hlength
    obtain ⟨hentry, hentries⟩ := List.forall_mem_cons.mp h
    rw [List.mapM_cons, hentry, ih (Nat.succ.inj hlength) hentries]
    rfl

/-- A structure is taken apart into the fields it was put together from. -/
theorem fields?_ofMembers {names : List String} {values : List Json} (hnames : names.Nodup)
    (hlength : values.length = names.length) :
    (ofMembers (names.zip values)).fields? names = some (values.map some) := by
  have hentries : ((names.zip values).map Prod.fst).Nodup := by
    rwa [List.map_fst_zip (Nat.le_of_eq hlength.symm)]
  rw [ofMembers, fields?, if_pos (by simp)]
  exact mapM_member? hlength fun entry hentry => member?_of_mem hentries hentry

theorem wellSpelt_ofEntries {entries : List (String × Json)}
    (h : ∀ entry ∈ entries, entry.2.WellSpelt) : (ofMembers entries).WellSpelt := by
  refine .object ?_ ?_
  · intro member hmember
    obtain ⟨entry, -, rfl⟩ := List.mem_map.mp hmember
    exact ⟨entry.1, rfl⟩
  · intro member hmember
    obtain ⟨entry, hentry, rfl⟩ := List.mem_map.mp hmember
    exact h entry hentry

theorem wellSpelt_ofMembers {names : List String} {values : List Json}
    (h : ∀ value ∈ values, value.WellSpelt) : (ofMembers (names.zip values)).WellSpelt :=
  wellSpelt_ofEntries fun entry hentry => h entry.2 (List.of_mem_zip hentry).2

end Fields

/-! ## Values of fields -/

section Values

theorem toNat?_ofNat {n bound : Nat} (h : n < bound) : (ofNat n).toNat? bound = some n := by
  simp [ofNat, toNat?, Numeral.toNat?_ofNat, h]

theorem toCount?_ofNat {n : Nat} (h : n < Nat.pow 2 64) : (ofNat n).toCount? = some n :=
  toNat?_ofNat h

theorem toTexts?_ofStrings (texts : List String) : (ofStrings texts).toTexts? = some texts := by
  rw [ofStrings, toTexts?]
  induction texts with
  | nil => rfl
  | cons text texts ih => rw [List.map_cons, List.mapM_cons, ih]; rfl

theorem optional?_ofOption {α : Type} {read? : Json → Option α} {write : α → Json} {value : Option α}
    (h : ∀ found ∈ value, read? (write found) = some found ∧ write found ≠ .null) :
    optional? read? (some (ofOption (value.map write))) = some value := by
  cases value with
  | none => rfl
  | some found =>
    obtain ⟨hread, hnull⟩ := h found rfl
    rw [Option.map_some, ofOption, Option.getD_some, optional?, hread]
    · rfl
    · exact hnull

theorem wellSpelt_ofNat (n : Nat) : (ofNat n).WellSpelt :=
  .number (Numeral.wellSpelt_ofNat n)

theorem wellSpelt_ofFloat (x : Float) : (ofFloat x).WellSpelt := by
  rw [ofFloat]
  split
  · exact .number (Numeral.wellSpelt_ofFloat x)
  · exact .null

theorem wellSpelt_ofStrings (texts : List String) : (ofStrings texts).WellSpelt := by
  refine .array fun item hitem => ?_
  obtain ⟨text, -, rfl⟩ := List.mem_map.mp hitem
  exact .string text

theorem wellSpelt_ofOption {α : Type} {write : α → Json} {value : Option α}
    (h : ∀ found ∈ value, (write found).WellSpelt) : (ofOption (value.map write)).WellSpelt := by
  cases value with
  | none => exact .null
  | some found => exact h found rfl

/-- A double that is read back from its decimal. -/
structure IsReadBack (x : Float) : Prop where
  isFinite : x.isFinite = true
  toFloat?_eq : (Numeral.ofFloat x).toFloat? = some x

theorem toFloat?_ofFloat {x : Float} (h : IsReadBack x) : (ofFloat x).toFloat? = some x := by
  rw [ofFloat, if_pos h.isFinite, toFloat?, h.toFloat?_eq]

end Values

end Json

open Json

/-! ## Line counts and duplication -/

/-- The counts fit in 64 bits. -/
structure LineCounts.Fits (lines : LineCounts) : Prop where
  total : lines.total < Nat.pow 2 64
  code : lines.code < Nat.pow 2 64
  comment : lines.comment < Nat.pow 2 64
  blank : lines.blank < Nat.pow 2 64

theorem LineCounts.ofJson?_toJson {lines : LineCounts} (h : lines.Fits) :
    ofJson? lines.toJson = some lines := by
  rw [toJson, ofJson?, fields?_ofMembers (by decide) rfl]
  simp [toCount?_ofNat h.total, toCount?_ofNat h.code, toCount?_ofNat h.comment,
    toCount?_ofNat h.blank]

theorem LineCounts.wellSpelt_toJson (lines : LineCounts) : lines.toJson.WellSpelt := by
  refine wellSpelt_ofMembers ?_
  simp [wellSpelt_ofNat]

structure Duplication.Fits (duplication : Duplication) : Prop where
  percentage : IsReadBack duplication.percentage
  duplicatedLines : duplication.duplicatedLines < Nat.pow 2 64

theorem Duplication.ofJson?_toJson {duplication : Duplication} (h : duplication.Fits) :
    ofJson? duplication.toJson = some duplication := by
  rw [toJson, ofJson?, fields?_ofMembers (by decide) rfl]
  simp [toFloat?_ofFloat h.percentage, toCount?_ofNat h.duplicatedLines]

theorem Duplication.wellSpelt_toJson (duplication : Duplication) :
    duplication.toJson.WellSpelt := by
  refine wellSpelt_ofMembers ?_
  simp [wellSpelt_ofNat, wellSpelt_ofFloat]

/-! ## Records -/

/-- The counts of a record fit in 64 bits, its complexity in 32, and its percentage is read back. -/
structure Record.Fits (record : Record) : Prop where
  lines : record.lines.Fits
  complexity : record.complexity < Nat.pow 2 32
  functions : record.functions < Nat.pow 2 64
  classes : record.classes < Nat.pow 2 64
  duplication : record.duplication.Fits

theorem Record.ofJson?_toJson {record : Record} (h : record.Fits) :
    ofJson? record.toJson = some record := by
  rw [toJson, ofJson?, fields?_ofMembers (by decide) rfl]
  simp [ofString, toText?, LineCounts.ofJson?_toJson h.lines, toNat?_ofNat h.complexity,
    toCount?_ofNat h.functions, toCount?_ofNat h.classes,
    Duplication.ofJson?_toJson h.duplication, toTexts?_ofStrings]

theorem Record.wellSpelt_toJson (record : Record) : record.toJson.WellSpelt := by
  refine wellSpelt_ofMembers ?_
  simp [ofString, WellSpelt.string, wellSpelt_ofNat, wellSpelt_ofStrings,
    LineCounts.wellSpelt_toJson, Duplication.wellSpelt_toJson]

/-! ## Summaries -/

theorem Hotspot.ofJson?_toJson {hotspot : Hotspot} (h : hotspot.complexity < Nat.pow 2 32) :
    ofJson? hotspot.toJson = some hotspot := by
  rw [toJson, ofJson?, fields?_ofMembers (by decide) rfl]
  simp [ofString, toText?, toNat?_ofNat h]

theorem Hotspot.wellSpelt_toJson (hotspot : Hotspot) : hotspot.toJson.WellSpelt := by
  refine wellSpelt_ofMembers ?_
  simp [ofString, WellSpelt.string, wellSpelt_ofNat]

/-- The counts of a summary fit in 64 bits, its complexities in 32, and its average is read back. -/
structure Summary.Fits (summary : Summary) : Prop where
  files : summary.files < Nat.pow 2 64
  totalLines : summary.totalLines < Nat.pow 2 64
  codeLines : summary.codeLines < Nat.pow 2 64
  commentLines : summary.commentLines < Nat.pow 2 64
  blankLines : summary.blankLines < Nat.pow 2 64
  averageComplexity : IsReadBack summary.averageComplexity
  hotspot : ∀ found ∈ summary.hotspot, found.complexity < Nat.pow 2 32
  unusedVariables : summary.unusedVariables < Nat.pow 2 64
  unusedImports : summary.unusedImports < Nat.pow 2 64
  typeIssues : summary.typeIssues < Nat.pow 2 64
  limit : ∀ limit ∈ summary.limit, limit < Nat.pow 2 32

theorem Summary.ofJson?_toJson {summary : Summary} (h : summary.Fits) :
    ofJson? summary.toJson = some summary := by
  have hhotspot : optional? Hotspot.ofJson? (some (ofOption (summary.hotspot.map Hotspot.toJson))) =
      some summary.hotspot :=
    optional?_ofOption fun found hfound => ⟨Hotspot.ofJson?_toJson (h.hotspot found hfound), nofun⟩
  have hlimit : optional? (Json.toNat? (Nat.pow 2 32)) (some (ofOption (summary.limit.map ofNat))) =
      some summary.limit :=
    optional?_ofOption fun limit hl => ⟨toNat?_ofNat (h.limit limit hl), nofun⟩
  rw [toJson, ofJson?, fields?_ofMembers (by decide) rfl]
  simp [toCount?_ofNat h.files, toCount?_ofNat h.totalLines, toCount?_ofNat h.codeLines,
    toCount?_ofNat h.commentLines, toCount?_ofNat h.blankLines,
    toFloat?_ofFloat h.averageComplexity, hhotspot, toCount?_ofNat h.unusedVariables,
    toCount?_ofNat h.unusedImports, toCount?_ofNat h.typeIssues, hlimit, toTexts?_ofStrings]

theorem Summary.wellSpelt_toJson (summary : Summary) : summary.toJson.WellSpelt := by
  have hhotspot : (ofOption (summary.hotspot.map Hotspot.toJson)).WellSpelt :=
    wellSpelt_ofOption fun found _ => found.wellSpelt_toJson
  have hlimit : (ofOption (summary.limit.map ofNat)).WellSpelt :=
    wellSpelt_ofOption fun limit _ => wellSpelt_ofNat limit
  refine wellSpelt_ofMembers ?_
  simp [wellSpelt_ofNat, wellSpelt_ofFloat, wellSpelt_ofStrings, hhotspot, hlimit]

/-! ## Texts -/

/-- **Records and summaries are read back from their texts**, field by field. -/
theorem ofJson?_parse?_render :
    (∀ record : Record, record.Fits →
      (parse? record.toJson.render.toList).bind Record.ofJson? = some record) ∧
    ∀ summary : Summary, summary.Fits →
      (parse? summary.toJson.render.toList).bind Summary.ofJson? = some summary := by
  constructor
  · intro record h
    rw [parse?_render record.wellSpelt_toJson, Option.bind_some, Record.ofJson?_toJson h]
  · intro summary h
    rw [parse?_render summary.wellSpelt_toJson, Option.bind_some, Summary.ofJson?_toJson h]

/-- A record with characters that are escaped, the greatest counts, and a percentage that has no
short decimal. -/
def escapedRecord : Record where
  path := "a\"\\/\n\u0001\u001f\u007fé😀.ts"
  lines := ⟨18446744073709551615, 0, 1, 2⟩
  complexity := 4294967295
  functions := 0
  classes := 18446744073709551615
  duplication := ⟨33.33333333333333, 0⟩
  unusedVariables := ["", "\t"]
  unusedImports := []
  typeIssues := ["é"]

/-- A summary with a hotspot and without a limit. -/
def unlimitedSummary : Summary where
  files := 3
  totalLines := 18446744073709551615
  codeLines := 0
  commentLines := 1
  blankLines := 2
  averageComplexity := 0.00000125
  hotspot := some ⟨"\u0000", 4294967295⟩
  unusedVariables := 0
  unusedImports := 0
  typeIssues := 0
  limit := none
  overLimit := []

theorem fits_escapedRecord : escapedRecord.Fits := by
  have hpercentage : IsReadBack escapedRecord.duplication.percentage :=
    ⟨by decide +kernel, by decide +kernel⟩
  exact ⟨⟨by decide, by decide, by decide, by decide⟩, by decide, by decide, by decide,
    ⟨hpercentage, by decide⟩⟩

theorem fits_unlimitedSummary : unlimitedSummary.Fits := by
  have haverage : IsReadBack unlimitedSummary.averageComplexity :=
    ⟨by decide +kernel, by decide +kernel⟩
  exact ⟨by decide, by decide, by decide, by decide, by decide, haverage, by decide, by decide,
    by decide, by decide, by decide⟩

theorem ofJson?_parse?_render_escaped :
    escapedRecord.Fits ∧ unlimitedSummary.Fits ∧
      (parse? escapedRecord.toJson.render.toList).bind Record.ofJson? = some escapedRecord ∧
      (parse? unlimitedSummary.toJson.render.toList).bind Summary.ofJson? =
        some unlimitedSummary :=
  ⟨fits_escapedRecord, fits_unlimitedSummary, ofJson?_parse?_render.1 _ fits_escapedRecord,
    ofJson?_parse?_render.2 _ fits_unlimitedSummary⟩

end SourceMetrics
