import SourceMetrics.Names.Binding
import SourceMetrics.Proofs.Respelling.Scan

/-! # Names in a text that is spelt otherwise

A name holds neither a line feed nor a carriage return, so the tokens and the declared variables of a
text are found again, letter by letter, when the text is spelt otherwise. -/

namespace SourceMetrics.Names

set_option autoImplicit false

open Text Phrase.Part

variable {text : List Char}

theorem findSome?_congr {α β : Type} {f g : α → Option β} {items : List α}
    (h : ∀ item ∈ items, f item = g item) : items.findSome? f = items.findSome? g := by
  induction items with
  | nil => rfl
  | cons item items ih =>
    rw [List.forall_mem_cons] at h
    rw [List.findSome?_cons, List.findSome?_cons, h.1, ih h.2]

/-! ## Names -/

theorem name?_eq_none {c : Char} {rest : List Char} (hc : beginsName c = false) :
    name? (c :: rest) = none := by
  rw [name?, List.head?_cons, Option.any_some, hc]
  rfl

theorem lineFeed_not_mem_takeWhile : '\n' ∉ text.takeWhile inName := by
  intro hmem
  have hallowed := List.all_eq_true.mp List.all_takeWhile _ hmem
  revert hallowed
  decide

theorem name?_withReturns : name? (withReturns text) = name? text := by
  rw [name?, name?, any_head?_withReturns (by decide), takeWhile_withReturns (by decide),
    withReturns_of_not_mem lineFeed_not_mem_takeWhile]

theorem prefix_of_name? {name : List Char} (h : name? text = some name) :
    name <+: text ∧ '\n' ∉ name := by
  rw [name?] at h
  split at h
  · obtain rfl := Option.some.inj h
    exact ⟨List.takeWhile_prefix _, lineFeed_not_mem_takeWhile⟩
  · cases h

/-! ## Tokens -/

theorem dropDollars_prefix (name : List Char) : dropDollars name <+: name := by
  have hsuffix := List.reverse_prefix.mpr (List.dropWhile_suffix (l := name.reverse) (· == '$'))
  rwa [List.reverse_reverse] at hsuffix

theorem tokenReader_eq_some {before : Option Char} {token : List Char} {covered : Nat}
    (h : tokenReader before text = some (token, covered)) :
    token <+: text ∧ '\n' ∉ token ∧ covered = token.length := by
  rw [tokenReader] at h
  split at h
  · split at h
    · rename_i c rest hname
      obtain ⟨name, hname, hdrop⟩ := Option.map_eq_some_iff.mp hname
      obtain ⟨hfront, hfeed⟩ := prefix_of_name? hname
      have htoken : c :: rest <+: name := hdrop ▸ dropDollars_prefix name
      obtain ⟨rfl, rfl⟩ := Prod.mk.inj (Option.some.inj h)
      exact ⟨htoken.trans hfront, fun hmem => hfeed (htoken.mem hmem), rfl⟩
    · cases h
  · cases h

theorem tokenReader_eq_none {before : Option Char} {c : Char} {rest : List Char}
    (hc : beginsName c = false) : tokenReader before (c :: rest) = none := by
  rw [tokenReader, name?_eq_none hc]
  split
  · rfl
  · rfl

theorem isSteady_tokenReader : tokenReader.IsSteady id where
  lineFeed _ _ := tokenReader_eq_none (by decide)
  mark _ _ := tokenReader_eq_none (by decide)
  before text hbefore := by
    rw [tokenReader, tokenReader, isEdge, isEdge, hbefore]
  returns before text := by
    have hsame : tokenReader before (withReturns text) = tokenReader before text := by
      rw [tokenReader, tokenReader, isEdge_withReturns, name?_withReturns]
    rw [hsame]
    cases hread : tokenReader before text with
    | none => rfl
    | some found =>
      obtain ⟨token, covered⟩ := found
      obtain ⟨⟨rest, rfl⟩, hfeed, rfl⟩ := tokenReader_eq_some hread
      rw [Option.map_some, List.take_left, withReturns_of_not_mem hfeed]
      rfl

/-! ## Declared variables -/

/-- The keyword at the front of a text, with the blank characters behind it. -/
def keyword? (before : Option Char) (text : List Char) : Option (List Char) :=
  variableKeywords.findSome? fun keyword => Phrase.front? before text [edge, exact keyword, gap]

theorem variableReader_eq (before : Option Char) (text : List Char) :
    variableReader before text = (keyword? before text).bind fun keyword =>
      (name? (text.drop keyword.length)).map fun name => (name, keyword.length + name.length) := by
  rw [variableReader, keyword?, Option.bind_eq_bind]
  refine Option.bind_congr fun keyword _ => ?_
  cases name? (text.drop keyword.length) with
  | none => rfl
  | some name => rfl

theorem isSteady_keyword {keyword : String} (h : keyword ∈ variableKeywords) :
    Phrase.isSteady [edge, exact keyword, gap] = true := by
  revert keyword
  decide

theorem keyword?_withReturns {before : Option Char} :
    keyword? before (withReturns text) = (keyword? before text).map withReturns := by
  rw [keyword?, keyword?, List.map_findSome?]
  refine findSome?_congr fun keyword hkeyword => ?_
  exact Phrase.front?_withReturns (Phrase.all_isSteady (isSteady_keyword hkeyword))

theorem variableReader_eq_none {before : Option Char} (h : keyword? before text = none) :
    variableReader before text = none := by
  rw [variableReader_eq, h]
  rfl

theorem isSteady_variableReader : variableReader.IsSteady id where
  lineFeed _ _ := by
    refine variableReader_eq_none (List.findSome?_eq_none_iff.mpr fun keyword hkeyword => ?_)
    exact Phrase.front?_lineFeed (isSteady_keyword hkeyword)
  mark _ _ := by
    refine variableReader_eq_none (List.findSome?_eq_none_iff.mpr fun keyword hkeyword => ?_)
    exact Phrase.front?_mark (isSteady_keyword hkeyword)
  before text hbefore := by
    have hkeyword : keyword? _ text = keyword? _ text :=
      findSome?_congr fun keyword _ => Phrase.front?_before hbefore
    rw [variableReader_eq, variableReader_eq, hkeyword]
  returns before text := by
    rw [variableReader_eq, variableReader_eq, keyword?_withReturns]
    cases hkeyword : keyword? before text with
    | none => rfl
    | some keyword =>
      obtain ⟨_, hfront⟩ := List.exists_of_findSome?_eq_some hkeyword
      obtain ⟨rest, rfl⟩ := Phrase.front?_prefix hfront.2
      simp only [Option.map_some, Option.bind_some, withReturns_append, List.drop_left,
        name?_withReturns]
      cases hname : name? rest with
      | none => rfl
      | some name =>
        obtain ⟨⟨behind, rfl⟩, hfeed⟩ := prefix_of_name? hname
        have htake : (keyword ++ (name ++ behind)).take (keyword.length + name.length) =
            keyword ++ name := by
          rw [← List.append_assoc, ← List.length_append, List.take_left]
        simp only [Option.map_some, htake, withReturns_append, withReturns_of_not_mem hfeed,
          List.length_append, id]

/-! ## Unused variables -/

theorem unusedVariables_respell (returns mark : Bool) (text : List Char) :
    unusedVariables (respell returns mark text) = unusedVariables text := by
  have htokens : tokens (respell returns mark text) = tokens text := by
    rw [tokens, tokens, Reader.scan_respell isSteady_tokenReader, ite_self, List.map_id]
  have hdeclared : declared (respell returns mark text) = declared text := by
    rw [declared, declared, Reader.scan_respell isSteady_variableReader, ite_self, List.map_id]
  rw [unusedVariables, unusedVariables, htokens, hdeclared]

end SourceMetrics.Names
