import SourceMetrics.Json.Parser
import SourceMetrics.Proofs.Json.Token

/-! # Printed values that are read back

A value has a row of tokens, to which its layout adds spaces only. The text of a value is read as
its tokens, and its tokens are read as the value.

* `reads_print`: the induction is on how the value is spelt; what follows must not continue a
  numeral.
* `inductionOn`: what a value has from the items and members in it.
* `value?_tokens`: the induction is on the value; as many steps as there are tokens are enough.
* `parse?_of_reads`, `parse?_render`: the two together. -/

namespace SourceMetrics.Json

set_option autoImplicit false

open Numeral Text Token

/-- A value in which every numeral can be spelt and every string denotes a text. -/
inductive WellSpelt : Json → Prop
  | null : WellSpelt .null
  | bool (value : Bool) : WellSpelt (.bool value)
  | number {numeral : Numeral} : numeral.WellSpelt → WellSpelt (.number numeral)
  | string (text : String) : WellSpelt (.string (some text))
  | array {items : List Json} : (∀ item ∈ items, WellSpelt item) → WellSpelt (.array items)
  | object {members : List (Option String × Json)} :
      (∀ member ∈ members, ∃ name, member.1 = some name) →
      (∀ member ∈ members, WellSpelt member.2) → WellSpelt (.object members)

mutual

/-- The tokens of a value. -/
def tokens : Json → List Token
  | .array [] => [.openArray, .closeArray]
  | .array (item :: items) => .openArray :: (item.tokens ++ itemTokens items ++ [.closeArray])
  | .object [] => [.openObject, .closeObject]
  | .object (member :: members) =>
    .openObject :: (memberTokens member ++ membersTokens members ++ [.closeObject])
  | value => [.scalar value]

/-- The tokens of the items behind the first one. -/
def itemTokens : List Json → List Token
  | [] => []
  | item :: items => .comma :: (item.tokens ++ itemTokens items)

def memberTokens : Option String × Json → List Token
  | (name, value) => .scalar (.string name) :: .colon :: value.tokens

/-- The tokens of the members behind the first one. -/
def membersTokens : List (Option String × Json) → List Token
  | [] => []
  | member :: members => .comma :: (memberTokens member ++ membersTokens members)

end

/-! ## From texts to tokens -/

section Printing

/-- A value is read as its tokens wherever its text stands. -/
def IsRead (value : Json) : Prop :=
  ∀ depth rest row, Stops continues rest → Reads rest row →
    Reads (print depth value ++ rest) (value.tokens ++ row)

theorem stops_newLine (depth : Nat) (rest : List Char) : Stops continues (newLine depth ++ rest) :=
  stops_cons.mpr rfl

theorem reads_printItems {items : List Json} (h : ∀ item ∈ items, IsRead item) (depth : Nat)
    {rest : List Char} {row : List Token} (hrest : Stops continues rest) (hrow : Reads rest row) :
    Stops continues (printItems depth items ++ rest) ∧
      Reads (printItems depth items ++ rest) (itemTokens items ++ row) := by
  induction items with
  | nil => exact ⟨by rwa [printItems], by rwa [printItems, itemTokens]⟩
  | cons item items ih =>
    obtain ⟨hitem, hitems⟩ := List.forall_mem_cons.mp h
    obtain ⟨hstops, hreads⟩ := ih hitems
    have hread := (hitem depth _ _ hstops hreads).newLine depth
    rw [printItems, itemTokens]
    simp only [List.append_assoc, List.cons_append]
    exact ⟨stops_cons.mpr rfl, hread.mark rfl rfl⟩

theorem reads_printMember (name : String) {value : Json} (h : IsRead value) (depth : Nat)
    {rest : List Char} {row : List Token} (hrest : Stops continues rest) (hrow : Reads rest row) :
    Reads (printMember depth (some name, value) ++ rest)
      (memberTokens (some name, value) ++ row) := by
  have hvalue : Reads (':' :: ' ' :: (print depth value ++ rest))
      (.colon :: (value.tokens ++ row)) :=
    .mark rfl rfl (.space rfl (h depth rest row hrest hrow))
  have hname := Reads.quote name hvalue
  rw [printMember, memberTokens]
  simpa [quote?] using hname

theorem reads_printMembers {members : List (Option String × Json)}
    (hnames : ∀ member ∈ members, ∃ name, member.1 = some name)
    (h : ∀ member ∈ members, IsRead member.2) (depth : Nat) {rest : List Char} {row : List Token}
    (hrest : Stops continues rest) (hrow : Reads rest row) :
    Stops continues (printMembers depth members ++ rest) ∧
      Reads (printMembers depth members ++ rest) (membersTokens members ++ row) := by
  induction members with
  | nil => exact ⟨by rwa [printMembers], by rwa [printMembers, membersTokens]⟩
  | cons member members ih =>
    obtain ⟨⟨name, hname⟩, hnames⟩ := List.forall_mem_cons.mp hnames
    obtain ⟨hmember, hmembers⟩ := List.forall_mem_cons.mp h
    obtain ⟨hstops, hreads⟩ := ih hnames hmembers
    obtain ⟨_, value⟩ := member
    obtain rfl : _ = some name := hname
    have hread := (reads_printMember name hmember depth hstops hreads).newLine depth
    rw [printMembers, membersTokens]
    simp only [List.append_assoc, List.cons_append]
    exact ⟨stops_cons.mpr rfl, hread.mark rfl rfl⟩

/-- A well-spelt value is read as its tokens. -/
theorem reads_print {value : Json} (h : value.WellSpelt) : value.IsRead := by
  induction h with
  | null => exact fun depth rest row _ hrow => hrow.word "null" rfl rfl rfl
  | bool value =>
    cases value with
    | true => exact fun depth rest row _ hrow => hrow.word "true" rfl rfl rfl
    | false => exact fun depth rest row _ hrow => hrow.word "false" rfl rfl rfl
  | @number numeral hnumeral =>
    exact fun depth rest row hrest hrow =>
      hrow.numeral hnumeral (spells_exponentText numeral.exponent) hrest
  | string text => exact fun depth rest row _ hrow => hrow.quote text
  | @array items _ ih =>
    intro depth rest row hrest hrow
    cases items with
    | nil => exact .mark rfl rfl (hrow.mark rfl rfl)
    | cons item items =>
      obtain ⟨hitem, hitems⟩ := List.forall_mem_cons.mp ih
      have hclose : Reads (']' :: rest) (.closeArray :: row) := hrow.mark rfl rfl
      obtain ⟨hstops, hreads⟩ := reads_printItems hitems (depth + 1)
        (stops_newLine depth _) (hclose.newLine depth)
      have hread := hitem (depth + 1) _ _ hstops hreads
      rw [print, tokens]
      simp only [List.append_assoc, List.cons_append, List.nil_append]
      exact (hread.newLine (depth + 1)).mark rfl rfl
  | @object members hnamed _ ih =>
    intro depth rest row hrest hrow
    cases members with
    | nil => exact .mark rfl rfl (hrow.mark rfl rfl)
    | cons member members =>
      obtain ⟨⟨name, hname⟩, hnames⟩ := List.forall_mem_cons.mp hnamed
      obtain ⟨hmember, hmembers⟩ := List.forall_mem_cons.mp ih
      obtain ⟨first, value⟩ := member
      obtain rfl : first = some name := hname
      have hclose : Reads ('\x7d' :: rest) (.closeObject :: row) := hrow.mark rfl rfl
      obtain ⟨hstops, hreads⟩ := reads_printMembers hnames hmembers (depth + 1)
        (stops_newLine depth _) (hclose.newLine depth)
      have hread := reads_printMember name hmember (depth + 1) hstops hreads
      rw [print, tokens]
      simp only [List.append_assoc, List.cons_append, List.nil_append]
      exact (hread.newLine (depth + 1)).mark rfl rfl

end Printing

/-! ## From tokens to values -/

section Parsing

/-- A value is found at its tokens. -/
def IsFound (value : Json) : Prop :=
  ∀ fuel row, value.tokens.length ≤ fuel → value? fuel (value.tokens ++ row) = some (value, row)

theorem exists_tokens_eq_cons (value : Json) :
    ∃ first row, value.tokens = first :: row ∧ first ≠ .closeArray := by
  cases value with
  | array items => cases items <;> exact ⟨.openArray, _, rfl, nofun⟩
  | object members => cases members <;> exact ⟨.openObject, _, rfl, nofun⟩
  | _ => exact ⟨.scalar _, _, rfl, nofun⟩

theorem value?_openArray {fuel : Nat} {first : Token} (hfirst : first ≠ .closeArray)
    (row : List Token) :
    value? (fuel + 1) (.openArray :: first :: row) =
      (items? fuel (first :: row)).map fun found => (.array found.1, found.2) := by
  rw [value?]
  intro rest hsame
  exact hfirst (List.cons.inj hsame).1

theorem items?_tokens {item : Json} {items : List Json} (hitem : IsFound item)
    (h : ∀ item ∈ items, IsFound item) (fuel : Nat) (row : List Token)
    (hfuel : (item.tokens ++ itemTokens items ++ [Token.closeArray]).length ≤ fuel) :
    items? fuel (item.tokens ++ itemTokens items ++ Token.closeArray :: row) =
      some (item :: items, row) := by
  induction items generalizing item fuel with
  | nil =>
    obtain _ | fuel := fuel
    · simp at hfuel
    · simp only [itemTokens, List.append_nil, List.length_append, List.length_singleton] at hfuel ⊢
      rw [items?, hitem fuel _ (by omega)]
      rfl
  | cons next items ih =>
    obtain _ | fuel := fuel
    · simp at hfuel
    · obtain ⟨hnext, hitems⟩ := List.forall_mem_cons.mp h
      simp only [itemTokens, List.length_append, List.length_cons, List.length_nil] at hfuel
      have hrest := ih hnext hitems fuel (by simp; omega)
      rw [itemTokens, items?, List.append_assoc, List.cons_append, hitem fuel _ (by omega)]
      simp only [Option.bind_eq_bind, Option.bind_some]
      rw [hrest]
      rfl

theorem members?_tokens (name : Option String) {value : Json}
    {members : List (Option String × Json)} (hvalue : IsFound value)
    (h : ∀ member ∈ members, IsFound member.2) (fuel : Nat) (row : List Token)
    (hfuel : (memberTokens (name, value) ++ membersTokens members ++ [Token.closeObject]).length ≤
      fuel) :
    members? fuel (memberTokens (name, value) ++ membersTokens members ++ Token.closeObject :: row) =
      some ((name, value) :: members, row) := by
  induction members generalizing name value fuel with
  | nil =>
    obtain _ | fuel := fuel
    · simp at hfuel
    · simp only [memberTokens, membersTokens, List.append_nil, List.length_append, List.length_cons,
        List.length_nil, List.cons_append] at hfuel ⊢
      rw [members?, hvalue fuel _ (by omega)]
      rfl
  | cons next members ih =>
    obtain ⟨nextName, nextValue⟩ := next
    obtain _ | fuel := fuel
    · simp at hfuel
    · obtain ⟨hnext, hmembers⟩ := List.forall_mem_cons.mp h
      simp only [memberTokens, membersTokens, List.length_append, List.length_cons,
        List.length_nil] at hfuel
      have hrest := ih nextName hnext hmembers fuel
        (by simp [memberTokens]; omega)
      rw [membersTokens, memberTokens, List.append_assoc, List.cons_append, List.cons_append,
        List.cons_append, members?, hvalue fuel _ (by omega)]
      simp only [Option.bind_eq_bind, Option.bind_some]
      rw [hrest]
      rfl

theorem isFound_scalar {value : Json} (h : value.tokens = [.scalar value]) : value.IsFound := by
  intro fuel row hfuel
  obtain _ | fuel := fuel
  · simp [h] at hfuel
  · rw [h]
    rfl

theorem isFound_array {items : List Json} (h : ∀ item ∈ items, IsFound item) :
    IsFound (.array items) := by
  intro fuel row hfuel
  obtain _ | fuel := fuel
  · cases items <;> simp [tokens] at hfuel
  cases items with
  | nil => rfl
  | cons item items =>
    obtain ⟨hitem, hitems⟩ := List.forall_mem_cons.mp h
    obtain ⟨first, others, hfirst, hne⟩ := exists_tokens_eq_cons item
    have hrest := items?_tokens hitem hitems fuel row (by simp [tokens] at hfuel ⊢; omega)
    simp only [tokens, hfirst, List.cons_append, List.append_assoc, List.nil_append] at hrest ⊢
    rw [value?_openArray hne, hrest]
    rfl

theorem isFound_object {members : List (Option String × Json)}
    (h : ∀ member ∈ members, IsFound member.2) : IsFound (.object members) := by
  intro fuel row hfuel
  obtain _ | fuel := fuel
  · cases members <;> simp [tokens] at hfuel
  cases members with
  | nil => rfl
  | cons member members =>
    obtain ⟨name, value⟩ := member
    obtain ⟨hvalue, hmembers⟩ := List.forall_mem_cons.mp h
    have hrest := members?_tokens name hvalue hmembers fuel row
      (by simp [tokens] at hfuel ⊢; omega)
    simp only [tokens, memberTokens, List.cons_append, List.append_assoc, List.nil_append]
      at hrest ⊢
    rw [value?, hrest]
    · rfl
    · nofun

/-- What a value has from the items and members in it, every value has. -/
theorem inductionOn {holds : Json → Prop}
    (scalar : ∀ value : Json, value.tokens = [.scalar value] → holds value)
    (array : ∀ items, (∀ item ∈ items, holds item) → holds (.array items))
    (object : ∀ members : List (Option String × Json), (∀ member ∈ members, holds member.2) →
      holds (.object members)) : ∀ value, holds value
  | .array items => array items fun item _ => inductionOn scalar array object item
  | .object members => object members fun member _ => inductionOn scalar array object member.2
  | .null => scalar .null rfl
  | .bool value => scalar (.bool value) rfl
  | .number numeral => scalar (.number numeral) rfl
  | .string text => scalar (.string text) rfl
termination_by value => sizeOf value
decreasing_by
  · rename_i hitem
    have hless := List.sizeOf_lt_of_mem hitem
    rw [Json.array.sizeOf_spec]
    omega
  · rename_i hmember
    have hless := List.sizeOf_lt_of_mem hmember
    have hvalue : sizeOf member.2 < sizeOf member := by
      obtain ⟨first, value⟩ := member
      change sizeOf value < sizeOf (first, value)
      rw [Prod.mk.sizeOf_spec]
      omega
    rw [Json.object.sizeOf_spec]
    omega

/-- The tokens of a value are read as that value. -/
theorem value?_tokens (value : Json) : value.IsFound :=
  inductionOn (fun _ => isFound_scalar) (fun _ => isFound_array) (fun _ => isFound_object) value

end Parsing

/-! ## From texts to values -/

/-- A text that is read as the tokens of a value is read as that value. -/
theorem parse?_of_reads {text : List Char} {value : Json} (h : Reads text value.tokens) :
    parse? text = some value := by
  have hvalue := value?_tokens value (value.tokens.length + 1) [] (Nat.le_succ _)
  rw [List.append_nil] at hvalue
  rw [parse?, h.read?_eq]
  simp [hvalue]

/-- **A value is read back from its text.** -/
theorem parse?_render {value : Json} (h : value.WellSpelt) :
    parse? value.render.toList = some value := by
  have hreads : Reads (print 0 value ++ []) (value.tokens ++ []) :=
    reads_print h 0 [] [] stops_nil .nil
  rw [List.append_nil, List.append_nil] at hreads
  rw [render, String.toList_ofList]
  exact parse?_of_reads hreads

end SourceMetrics.Json
