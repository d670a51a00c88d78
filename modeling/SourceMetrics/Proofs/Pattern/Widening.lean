import SourceMetrics.Proofs.Glob.Opening
import SourceMetrics.Proofs.Pattern.Reading

/-! # What a widened pattern finds

The widened globs of a pattern, taken together, match the text that the pattern matches as a glob,
and whatever may stand around it. Where two stars at an end of the pattern do not make up a segment,
nothing is put there, and nothing may stand there.

* `behind`, `inFront`, `found`: the language of a pattern with what may stand around it.
* `exists_endings`, `language_opening`: what is put behind the text, and in front of it.
* `exists_widened`: the widened globs of a text that is a glob by itself can be read, and match
  exactly that language. -/

namespace SourceMetrics.Pattern

set_option autoImplicit false

open Glob Glob.Symbol

/-! ## What may stand around a pattern -/

/-- Whether text may stand behind what the pattern matches: the pattern does not end in two stars,
or they make up a segment. -/
def isOpenBehind (text : List Char) : Bool :=
  text == ['*', '*'] || ['/', '*', '*'].isSuffixOf text || !(['*', '*'].isSuffixOf text)

/-- Whether directories may stand in front of what the pattern matches: the pattern does not start
with two stars, or they make up a segment. -/
def isOpenInFront : List Char → Bool
  | '*' :: '*' :: c :: _ => c == '/'
  | _ => true

/-- The words of a language with what may stand behind them. -/
def behind (text : List Char) (language : Language UInt8) : Language UInt8 :=
  if isOpenBehind text then language * ⊤ else language

/-- The words of a language that start with a slash, without that slash. -/
def withoutSlash (language : Language UInt8) : Language UInt8 :=
  {word | Path.slash :: word ∈ language}

/-- The words of a language with what the widened text lets stand in front of them. A slash at the
start of the pattern is also found at the start of a path that has none there. -/
def inFront (text : List Char) (language : Language UInt8) : Language UInt8 :=
  if ['*', '*'].isPrefixOf text then language
  else if ['/'].isPrefixOf text then withoutSlash (⊤ * language)
  else ⊤ * language

/-- What a pattern with the given text finds if the given words are those that it matches. -/
def found (text : List Char) (language : Language UInt8) : Language UInt8 :=
  inFront text (behind text language)

theorem mem_top_mul {word : List UInt8} {language : Language UInt8} :
    word ∈ ⊤ * language ↔ ∃ rest ∈ language, rest <:+ word := by
  rw [Language.mem_mul]
  constructor
  · rintro ⟨front, -, rest, hrest, rfl⟩
    exact ⟨rest, hrest, List.suffix_append front rest⟩
  · rintro ⟨rest, hrest, front, rfl⟩
    exact ⟨front, trivial, rest, hrest, rfl⟩

/-- Where the words stand that what is put in front of a text leads to. -/
def IsReached (text : List Char) (word rest : List UInt8) : Prop :=
  if ['*', '*'].isPrefixOf text then rest = word
  else if ['/'].isPrefixOf text then rest <:+ Path.slash :: word
  else rest <:+ word

theorem mem_inFront {text : List Char} {word : List UInt8} {language : Language UInt8} :
    word ∈ inFront text language ↔ ∃ rest ∈ language, IsReached text word rest := by
  by_cases hstars : ['*', '*'].isPrefixOf text = true
  · simp [inFront, IsReached, hstars]
  · by_cases hslash : ['/'].isPrefixOf text = true
    · rw [inFront, if_neg hstars, if_pos hslash]
      simp only [IsReached, if_neg hstars, if_pos hslash]
      exact mem_top_mul
    · rw [inFront, if_neg hstars, if_neg hslash]
      simp only [IsReached, if_neg hstars, if_neg hslash]
      exact mem_top_mul

/-! ## What is put behind a pattern -/

theorem endsInSlash_iff {text : List Char} {symbols : List Symbol} (h : Reads 0 text symbols 0) :
    ['/'].isSuffixOf text = true ↔ EndsInSlash symbols := by
  rw [List.isSuffixOf_iff_suffix]
  have hlast : ['/'] <:+ text ↔ text.getLast? = some '/' := by
    rw [List.getLast?_eq_some_iff]
    exact exists_congr fun _ => eq_comm
  rw [hlast]
  rcases List.eq_nil_or_concat symbols with rfl | ⟨front, symbol, rfl⟩
  · rw [h.eq_nil]
    simp [EndsInSlash]
  · rw [List.concat_eq_append] at h ⊢
    rw [h.getLast?_slash, EndsInSlash, List.getLast?_concat]
    simp

theorem reads_stars : Reads 0 ['*', '*'] [.atom .star, .atom .star] 0 :=
  .cons (.star 0) (.cons (.star 0) (.nil 0))

theorem reads_star : Reads 0 ['*'] [.atom .star] 0 :=
  .cons (.star 0) (.nil 0)

theorem reads_starsBelow :
    Reads 0 ['*', '/', '*', '*'] [.atom .star, .slash, .atom .star, .atom .star] 0 :=
  .cons (.star 0) (.cons (.slash 0) reads_stars)

theorem suffix_of_stars {text : List Char} {front : List Symbol}
    (h : Reads 0 text (front ++ [.atom .star, .atom .star]) 0) :
    ['*', '*'].isSuffixOf text = true := by
  rw [show front ++ [.atom .star, .atom .star] = front ++ [.atom .star] ++ [.atom .star] by simp]
    at h
  obtain ⟨shorter, rfl, hshorter⟩ := h.concat_star
  obtain ⟨shortest, rfl, -⟩ := hshorter.concat_star
  rw [List.isSuffixOf_iff_suffix]
  exact ⟨shortest, by simp⟩

theorem stars_of_suffix {text : List Char} {symbols : List Symbol} (h : Reads 0 text symbols 0)
    (hstars : text = ['*', '*'] ∨ ['/', '*', '*'] <:+ text) :
    ∃ front, symbols = front ++ [.atom .star, .atom .star] ∧ Nests 0 front 0 ∧
      (front = [] ∨ EndsInSlash front) := by
  obtain ⟨front, rfl, hfront⟩ : ∃ front, text = front ++ ['*', '*'] ∧
      (front = [] ∨ ['/'].isSuffixOf front) := by
    rcases hstars with rfl | ⟨front, rfl⟩
    · exact ⟨[], rfl, .inl rfl⟩
    · refine ⟨front ++ ['/'], by simp, .inr ?_⟩
      rw [List.isSuffixOf_iff_suffix]
      exact ⟨front, rfl⟩
  have hend : front.getLast? ≠ some '\\' := by
    rcases hfront with rfl | hfront
    · simp
    · obtain ⟨other, rfl⟩ := List.isSuffixOf_iff_suffix.mp hfront
      simp
  obtain ⟨shortest, rfl, hshortest⟩ := h.of_append_stars hend 2
  refine ⟨shortest, rfl, hshortest.nests, ?_⟩
  rcases hfront with rfl | hfront
  · cases hshortest.read_eq
    exact .inl rfl
  · exact .inr ((endsInSlash_iff hshortest).mp hfront)

theorem getLast?_of_suffix {text : List Char} {symbols : List Symbol} (h : Reads 0 text symbols 0)
    (hstars : ['*', '*'] <:+ text) : symbols.getLast? = some (.atom .star) := by
  obtain ⟨front, rfl⟩ := hstars
  rw [show front ++ ['*', '*'] = front ++ ['*'] ++ ['*'] by simp] at h
  rcases h.of_concat_star with ⟨shorter, rfl, -⟩ | ⟨rest, -, hbackslash, -, -⟩
  · exact List.getLast?_concat
  · exact absurd (List.append_inj' hbackslash rfl).2 (by decide)

theorem behind_of_stars {text : List Char} {symbols : List Symbol} (h : Reads 0 text symbols 0)
    (hstars : ['*', '*'].isSuffixOf text = true) :
    behind text (ofSymbols symbols).language = (ofSymbols symbols).language := by
  by_cases hopen : isOpenBehind text = true
  · rw [behind, if_pos hopen]
    rw [isOpenBehind, hstars] at hopen
    simp only [Bool.not_true, Bool.or_false, Bool.or_eq_true, beq_iff_eq,
      List.isSuffixOf_iff_suffix] at hopen
    obtain ⟨front, rfl, hnests, hfront⟩ := stars_of_suffix h hopen
    exact language_stars_mul_top hnests hfront
  · rw [behind, if_neg hopen]

/-- What is put behind a pattern, as text and as symbols. -/
structure Ending where
  text : List Char
  symbols : List Symbol

/-- What a pattern becomes with the text that is put behind it. -/
theorem exists_endings {text : List Char} {symbols : List Symbol} (h : Reads 0 text symbols 0) :
    ∃ ends : List Ending, endings text = ends.map (text ++ ·.text) ∧
      (∀ ending ∈ ends, Reads 0 ending.text ending.symbols 0 ∧ IsLoose ending.symbols ∧
        (symbols ++ ending.symbols).getLast? = some (.atom .star)) ∧
      ∀ word, (∃ ending ∈ ends, word ∈ (ofSymbols (symbols ++ ending.symbols)).language) ↔
        word ∈ behind text (ofSymbols symbols).language := by
  by_cases hstars : ['*', '*'].isSuffixOf text = true
  · refine ⟨[⟨[], []⟩], by simp [endings, hstars], ?_, fun word => ?_⟩
    · have hlast := getLast?_of_suffix h (List.isSuffixOf_iff_suffix.mp hstars)
      simpa [IsLoose] using ⟨Reads.nil 0, hlast⟩
    · rw [behind_of_stars h hstars]
      simp
  · have hopen : isOpenBehind text = true := by
      rw [isOpenBehind, Bool.not_eq_true _ |>.mp hstars, Bool.not_false, Bool.or_true]
    by_cases hslash : ['/'].isSuffixOf text = true
    · refine ⟨[⟨['*', '*'], [.atom .star, .atom .star]⟩], ?_, ?_, fun word => ?_⟩
      · rw [endings, if_neg hstars, if_pos hslash]
        rfl
      · simpa [IsLoose] using reads_stars
      · have hlanguage := language_append_stars h.nests ((endsInSlash_iff h).mp hslash)
        simp [behind, hopen, hlanguage]
    · refine ⟨[⟨['*'], [.atom .star]⟩,
        ⟨['*', '/', '*', '*'], [.atom .star, .slash, .atom .star, .atom .star]⟩], ?_, ?_,
        fun word => ?_⟩
      · rw [endings, if_neg hstars, if_neg hslash]
        rfl
      · simpa [IsLoose] using ⟨reads_star, reads_starsBelow⟩
      · have hlanguage := language_append_star h.nests (fun h' => hslash ((endsInSlash_iff h).mpr h'))
          fun front hfront => hstars (suffix_of_stars (hfront ▸ h))
        rw [behind, if_pos hopen, ← hlanguage, Language.mem_add]
        simp

/-! ## What is put in front of a pattern -/

/-- The symbols of what is put in front of a pattern. -/
def openingSymbols (text : List Char) : List Symbol :=
  (opening text).map fun c => if c = '/' then .slash else .atom .star

theorem reads_opening (text : List Char) : Reads 0 (opening text) (openingSymbols text) 0 := by
  have hsegment : Reads 0 ['*', '*', '/'] [.atom .star, .atom .star, .slash] 0 :=
    reads_stars.append (.cons (.slash 0) (.nil 0))
  unfold openingSymbols opening
  split
  · exact .nil 0
  · exact reads_stars
  · exact hsegment
  · exact hsegment.append reads_star

theorem opening_star {c : Char} (hc : c ≠ '*') (rest : List Char) :
    opening ('*' :: c :: rest) = ['*', '*', '/'] ∧
      ∀ language, inFront ('*' :: c :: rest) language = ⊤ * language := by
  constructor
  · unfold opening
    split <;> simp_all
  · intro language
    simp [inFront, Ne.symm hc]

theorem opening_other {c : Char} (hstar : c ≠ '*') (hslash : c ≠ '/') (rest : List Char) :
    opening (c :: rest) = ['*', '*', '/', '*'] ∧
      ∀ language, inFront (c :: rest) language = ⊤ * language := by
  constructor
  · unfold opening
    split <;> simp_all
  · intro language
    simp [inFront, Ne.symm hstar, Ne.symm hslash]

/-- How a text begins, and how its symbols do, with or without others behind them. -/
inductive Begins : List Char → List Symbol → Prop
  | stars (rest : List Char) (symbols : List Symbol) : Begins ('*' :: '*' :: rest) symbols
  | slash (rest : List Char) {symbols : List Symbol} : Nests 0 symbols 0 →
      Begins ('/' :: rest) (.slash :: symbols)
  | star {c : Char} (rest : List Char) {symbol : Symbol} {symbols : List Symbol} : c ≠ '*' →
      symbol ≠ .atom .star → Nests 0 (symbol :: symbols) 0 →
      Begins ('*' :: c :: rest) (.atom .star :: symbol :: symbols)
  | other {c : Char} (rest : List Char) {symbol : Symbol} {symbols : List Symbol} : c ≠ '*' →
      c ≠ '/' → symbol ≠ .atom .star → Nests 0 (symbol :: symbols) 0 →
      Begins (c :: rest) (symbol :: symbols)

theorem Begins.append {text : List Char} {symbols later : List Symbol} (h : Begins text symbols)
    (hlater : Nests 0 later 0) : Begins text (symbols ++ later) := by
  cases h with
  | stars rest => exact .stars rest _
  | slash rest hnests => exact .slash rest (hnests.append hlater)
  | star rest hc hsymbol hnests => exact .star rest hc hsymbol (hnests.append hlater)
  | other rest hc hslash hsymbol hnests => exact .other rest hc hslash hsymbol (hnests.append hlater)

theorem begins_of_reads {text : List Char} {symbols : List Symbol} (h : Reads 0 text symbols 0)
    (hempty : text ≠ []) (hstar : text ≠ ['*']) : Begins text symbols := by
  cases text with
  | nil => exact absurd rfl hempty
  | cons first rest =>
    by_cases hfirst : first = '*'
    · subst hfirst
      cases rest with
      | nil => exact absurd rfl hstar
      | cons second rest =>
        by_cases hsecond : second = '*'
        · subst hsecond
          exact .stars rest symbols
        · obtain ⟨later, rfl, hread⟩ := readFrom_of_star h.read_eq
          have hlater := reads_of_read hread
          obtain ⟨symbol, later, rfl, hsymbol⟩ := exists_cons_of_ne_star hsecond hlater
          exact .star rest hsecond hsymbol hlater.nests
    · by_cases hslash : first = '/'
      · subst hslash
        obtain ⟨later, rfl, hread⟩ := readFrom_of_slash h.read_eq
        exact .slash rest (reads_of_read hread).nests
      · have hnests := h.nests
        obtain ⟨symbol, later, rfl, hsymbol⟩ := exists_cons_of_ne_star hfirst h
        exact .other rest hfirst hslash hsymbol hnests

theorem language_opening {text : List Char} {symbols : List Symbol} (h : Begins text symbols)
    (hlast : symbols.getLast? = some (.atom .star)) :
    (ofSymbols (openingSymbols text ++ symbols)).language =
      inFront text (ofSymbols symbols).language := by
  cases h with
  | stars rest => rfl
  | slash rest hnests =>
    ext word
    exact language_opening_slash hnests (getLast?_of_slash hlast)
  | star rest hc hsymbol hnests =>
    obtain ⟨hopening, hfront⟩ := opening_star hc rest
    rw [openingSymbols, hopening, hfront]
    exact language_opening_star hsymbol hnests
  | other rest hc hslash hsymbol hnests =>
    obtain ⟨hopening, hfront⟩ := opening_other hc hslash rest
    rw [openingSymbols, hopening, hfront]
    exact language_opening_other hsymbol hnests

theorem rowDepth_opening {text : List Char} {symbols : List Symbol} (h : Begins text symbols) :
    rowDepth (ofSymbols (openingSymbols text ++ symbols)).pieces ≤
      max 4 (rowDepth (ofSymbols symbols).pieces) := by
  cases h with
  | stars rest => exact Nat.le_max_right ..
  | slash rest hnests => exact rowDepth_opening_slash hnests
  | star rest hc hsymbol hnests =>
    rw [openingSymbols, (opening_star hc rest).1]
    exact rowDepth_opening_star hsymbol hnests
  | other rest hc hslash hsymbol hnests =>
    rw [openingSymbols, (opening_other hc hslash rest).1]
    exact rowDepth_opening_other hsymbol hnests

/-! ## The widened globs -/

theorem isSuffixOf_append {ending text : List Char} (h : ending.length ≤ text.length)
    (front : List Char) : ending.isSuffixOf (front ++ text) = ending.isSuffixOf text := by
  rw [Bool.eq_iff_iff, List.isSuffixOf_iff_suffix, List.isSuffixOf_iff_suffix]
  have hsuffix := List.suffix_append front text
  exact ⟨fun hending => List.suffix_of_suffix_length_le hending hsuffix h, fun hending =>
    hending.trans hsuffix⟩

theorem stars_opening {text : List Char} (hstar : text ≠ ['*']) :
    ['*', '*'].isSuffixOf (opening text ++ text) = ['*', '*'].isSuffixOf text := by
  match text with
  | [] => rfl
  | [c] =>
    -- a single character is shorter than the stars that are looked for
    have hc : c ≠ '*' := fun h => hstar (h ▸ rfl)
    have hends (front : List Char) : ['*', '*'].isSuffixOf (front ++ [c]) = false := by
      rw [Bool.eq_false_iff, ne_eq, List.isSuffixOf_iff_suffix]
      rintro ⟨rest, hrest⟩
      rw [show rest ++ ['*', '*'] = rest ++ ['*'] ++ ['*'] by simp] at hrest
      exact hc (List.singleton_inj.mp (List.append_inj' hrest rfl).2).symm
    rw [hends, ← List.nil_append [c], hends]
  | _ :: _ :: _ => exact isSuffixOf_append (by simp) _

/-- What is put behind a pattern does not depend on what is put in front of it. -/
theorem endings_opening {text : List Char} (hempty : text ≠ []) (hstar : text ≠ ['*']) :
    endings (opening text ++ text) = (endings text).map (opening text ++ ·) := by
  have hlength : ['/'].length ≤ text.length := List.length_pos_iff.mpr hempty
  have hslash : ['/'].isSuffixOf (opening text ++ text) = ['/'].isSuffixOf text :=
    isSuffixOf_append hlength _
  rw [endings, endings, stars_opening hstar, hslash]
  split
  · rfl
  · split <;> simp

theorem spell_of_reads {α : Type} {spell : α → List Char} {spelt : α → List Symbol} {items : List α}
    (h : ∀ item ∈ items, Reads 0 (spell item) (spelt item) 0) :
    Spell (items.map spell) (items.map fun item => ofSymbols (spelt item)) := by
  rw [Spell, List.forall₂_map_left_iff, List.forall₂_map_right_iff, List.forall₂_same]
  exact fun item hitem => parse?_eq_ok.mpr ⟨_, h item hitem, rfl⟩

theorem found_short {text : List Char} {glob : Glob} (hshort : text = [] ∨ text = ['*'])
    (h : parse? text = .ok glob) : found text glob.language = ⊤ := by
  have hnil : [] ∈ glob.language := by
    rcases hshort with rfl | rfl
    · cases h
      exact rfl
    · have hlanguage : glob.language = Atom.star.language := by
        cases h
        exact rowLanguage_single .star
      rw [hlanguage]
      exact nil_mem_star
  have hfound : found text glob.language = ⊤ * (glob.language * ⊤) := by
    rcases hshort with rfl | rfl <;> rfl
  rw [hfound, mul_top_of_nil_mem hnil, top_mul_top]

/-- The widened globs of a text that is a glob by itself. -/
theorem exists_widened {text : List Char} {glob : Glob} (h : parse? text = .ok glob) :
    ∃ globs, Spell (widen text) globs ∧
      (∀ widened ∈ globs, rowDepth widened.pieces ≤ max 4 (rowDepth glob.pieces)) ∧
      ∀ word, (∃ widened ∈ globs, word ∈ widened.language) ↔ word ∈ found text glob.language := by
  by_cases hshort : text = [] ∨ text = ['*']
  · -- such a pattern fuses with what is put in front of it
    have hglobs : Spell (widen text) [⟨[.atom .anything]⟩, ⟨[.atom .anything]⟩] := by
      rcases hshort with rfl | rfl <;> exact .cons rfl (.cons rfl .nil)
    refine ⟨_, hglobs, by simp [rowDepth, Piece.depth, Atom.depth], fun word => ?_⟩
    rw [found_short hshort h]
    simp [language, rowLanguage_single, Atom.language]
  · obtain ⟨hempty, hstar⟩ := not_or.mp hshort
    obtain ⟨symbols, hreads, rfl⟩ := parse?_eq_ok.mp h
    obtain ⟨ends, hends, hending, hlanguage⟩ := exists_endings hreads
    have hbegins : ∀ ending ∈ ends, Begins text (symbols ++ ending.symbols) :=
      fun ending hmem => (begins_of_reads hreads hempty hstar).append (hending ending hmem).1.nests
    refine ⟨ends.map fun ending => ofSymbols (openingSymbols text ++ (symbols ++ ending.symbols)),
      ?_, ?_, fun word => ?_⟩
    · rw [widen, endings_opening hempty hstar, hends, List.map_map]
      refine spell_of_reads fun ending hmem => ?_
      exact (reads_opening text).append (hreads.append (hending ending hmem).1)
    · intro widened hwidened
      obtain ⟨ending, hmem, rfl⟩ := List.mem_map.mp hwidened
      have hopening := rowDepth_opening (hbegins ending hmem)
      have hbehind := rowDepth_append_loose hreads.nests (hending ending hmem).2.1
      omega
    · have hglob : ∀ ending ∈ ends,
          (ofSymbols (openingSymbols text ++ (symbols ++ ending.symbols))).language =
            inFront text (ofSymbols (symbols ++ ending.symbols)).language :=
        fun ending hmem => language_opening (hbegins ending hmem) (hending ending hmem).2.2
      rw [found, mem_inFront]
      constructor
      · rintro ⟨widened, hwidened, hword⟩
        obtain ⟨ending, hmem, rfl⟩ := List.mem_map.mp hwidened
        rw [hglob ending hmem, mem_inFront] at hword
        obtain ⟨rest, hrest, hreached⟩ := hword
        exact ⟨rest, (hlanguage rest).mp ⟨ending, hmem, hrest⟩, hreached⟩
      · rintro ⟨rest, hrest, hreached⟩
        obtain ⟨ending, hmem, hrest⟩ := (hlanguage rest).mpr hrest
        refine ⟨_, List.mem_map.mpr ⟨ending, hmem, rfl⟩, ?_⟩
        rw [hglob ending hmem, mem_inFront]
        exact ⟨rest, hrest, hreached⟩

end SourceMetrics.Pattern
