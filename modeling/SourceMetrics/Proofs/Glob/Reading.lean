import SourceMetrics.Glob.Symbol

/-! # Reading the text of a glob

A text that can be read falls apart into tokens, one for each symbol. The tokens of two texts that
stand one behind the other are those of the first and then those of the second.

* `Token`, `Reads`: the text of a symbol, and of a row of symbols, with the number of open groups in
  front of it and behind it.
* `reads_of_readFrom`, `Reads.readFrom_append`: the relation and the reader agree.
* `Reads.concat_inv`: the last token of a text, by which a text shows what its last symbol is.
* `Reads.of_append_stars`: stars at the end of a text are symbols of their own. -/

namespace SourceMetrics.Glob.Symbol

set_option autoImplicit false

/-! ## Character classes -/

/-- Behind the opening of a class, `inside` and a closing bracket complete the class. -/
def Closes (opened : OpenClass) (inside : List Char) (symbol : Symbol) : Prop :=
  ∀ depth rest, readFrom depth (some opened) (inside ++ ']' :: rest) =
    (readFrom depth none rest).map (symbol :: ·)

theorem OpenClass.read_inr {c : Char} {opened : OpenClass} {symbol : Symbol}
    (h : opened.read c = .ok (.inr symbol)) :
    c = ']' ∧ ∃ negated ranges, symbol = .atom (.set negated ranges) := by
  obtain ⟨negated, ranges, extending⟩ := opened
  cases ranges with
  | nil => simp [OpenClass.read] at h
  | cons range ranges =>
    simp only [OpenClass.read] at h
    split at h
    · rename_i hc
      simp only [Except.ok.injEq, Sum.inr.injEq] at h
      exact ⟨hc, negated, _, h.symm⟩
    · split at h
      · split at h <;> simp at h
      · split at h <;> simp at h

theorem exists_closes {depth : Nat} {opened : OpenClass} {text : List Char} {symbols : List Symbol}
    (h : readFrom depth (some opened) text = .ok symbols) :
    ∃ inside rest negated ranges later, text = inside ++ ']' :: rest ∧
      Closes opened inside (.atom (.set negated ranges)) ∧ readFrom depth none rest = .ok later ∧
      symbols = .atom (.set negated ranges) :: later := by
  induction text generalizing opened with
  | nil => simp [readFrom] at h
  | cons c text ih =>
    rw [readFrom] at h
    cases hread : opened.read c with
    | error fault => simp [hread, bind, Except.bind] at h
    | ok result =>
      cases result with
      | inl opened' =>
        simp only [hread, bind, Except.bind] at h
        obtain ⟨inside, rest, negated, ranges, later, rfl, hcloses, hrest, rfl⟩ := ih h
        refine ⟨c :: inside, rest, negated, ranges, later, rfl, ?_, hrest, rfl⟩
        intro depth rest
        rw [List.cons_append, readFrom, hread]
        exact hcloses depth rest
      | inr symbol =>
        simp only [hread, bind, Except.bind] at h
        obtain ⟨rfl, negated, ranges, rfl⟩ := OpenClass.read_inr hread
        cases hrest : readFrom depth none text with
        | error fault => simp [hrest] at h
        | ok later =>
          simp only [hrest, pure, Except.pure, Except.ok.injEq] at h
          refine ⟨[], text, negated, ranges, later, rfl, ?_, hrest, h.symm⟩
          intro depth rest
          rw [List.nil_append, readFrom, hread]
          rfl

/-! ## Tokens -/

/-- A character with a meaning of its own outside of classes, groups apart. -/
def isSpecial (c : Char) : Bool :=
  c == '\\' || c == '[' || c == '{' || c == '}' || c == '?' || c == '*' || c == '/'

/-- The text of a symbol, with the number of open groups in front of it and behind it. -/
inductive Token : Nat → List Char → Symbol → Nat → Prop
  | escaped (depth : Nat) (c : Char) : Token depth ['\\', c] (.atom (.literal c)) depth
  | plain (depth : Nat) (c : Char) : isSpecial c = false → (c = ',' → depth = 0) →
      Token depth [c] (.atom (.literal c)) depth
  | any (depth : Nat) : Token depth ['?'] (.atom .any) depth
  | star (depth : Nat) : Token depth ['*'] (.atom .star) depth
  | slash (depth : Nat) : Token depth ['/'] .slash depth
  | openGroup (depth : Nat) : Token depth ['{'] .openGroup (depth + 1)
  | comma (depth : Nat) : Token (depth + 1) [','] .comma (depth + 1)
  | closeGroup (depth : Nat) : Token (depth + 1) ['}'] .closeGroup depth
  | set (depth : Nat) (front : List Char) (negated : Bool) (ranges : List (Char × Char)) :
      (∀ depth rest, readFrom depth none (front ++ ']' :: rest) =
        (readFrom depth none rest).map (.atom (.set negated ranges) :: ·)) →
      Token depth (front ++ [']']) (.atom (.set negated ranges)) depth

/-- The text of a row of symbols. -/
inductive Reads : Nat → List Char → List Symbol → Nat → Prop
  | nil (depth : Nat) : Reads depth [] [] depth
  | cons {depth middle after : Nat} {token text : List Char} {symbol : Symbol}
      {symbols : List Symbol} : Token depth token symbol middle → Reads middle text symbols after →
      Reads depth (token ++ text) (symbol :: symbols) after

theorem Token.readFrom_append {depth after : Nat} {token : List Char} {symbol : Symbol}
    (h : Token depth token symbol after) (rest : List Char) :
    readFrom depth none (token ++ rest) = (readFrom after none rest).map (symbol :: ·) := by
  cases h with
  | escaped _ c => rfl
  | plain _ c hc hcomma =>
    simp only [isSpecial, Bool.or_eq_false_iff, beq_eq_false_iff_ne] at hc
    rw [List.singleton_append]
    cases depth with
    | zero =>
      by_cases h : c = ','
      · subst h
        rfl
      · rw [readFrom]
        · rfl
        all_goals simp_all
    | succ depth =>
      rw [readFrom]
      · rfl
      all_goals simp_all
  | any => rfl
  | star => rfl
  | slash => rfl
  | openGroup => rfl
  | comma => rfl
  | closeGroup => rfl
  | set _ front negated ranges hset =>
    rw [List.append_assoc]
    exact hset depth rest

theorem Reads.readFrom_append {depth after : Nat} {text : List Char} {symbols : List Symbol}
    (h : Reads depth text symbols after) (rest : List Char) :
    readFrom depth none (text ++ rest) = (readFrom after none rest).map (symbols ++ ·) := by
  induction h with
  | nil depth =>
    cases hr : readFrom depth none rest <;> simp [hr, Except.map]
  | cons htoken _ ih =>
    rw [List.append_assoc, htoken.readFrom_append, ih]
    cases readFrom _ none rest <;> rfl

theorem exists_of_map {result : Except Fault (List Symbol)} {symbol : Symbol} {symbols : List Symbol}
    (h : result.map (symbol :: ·) = .ok symbols) :
    ∃ later, symbols = symbol :: later ∧ result = .ok later := by
  cases result with
  | error fault => cases h
  | ok later =>
    cases h
    exact ⟨later, rfl, rfl⟩

/-- A text begins with a token, behind which the rest of it can be read. -/
def BeginsWithToken (depth : Nat) (text : List Char) (symbols : List Symbol) : Prop :=
  ∃ token rest symbol middle later, text = token ++ rest ∧ token ≠ [] ∧
    Token depth token symbol middle ∧ readFrom middle none rest = .ok later ∧
    symbols = symbol :: later

theorem beginsWithToken_single {depth middle : Nat} {c : Char} {text : List Char}
    {symbol : Symbol} {symbols : List Symbol} (htoken : Token depth [c] symbol middle)
    (h : (readFrom middle none text).map (symbol :: ·) = .ok symbols) :
    BeginsWithToken depth (c :: text) symbols := by
  obtain ⟨later, rfl, hrest⟩ := exists_of_map h
  exact ⟨[c], text, symbol, middle, later, rfl, by simp, htoken, hrest, rfl⟩

/-- A class begins with what opens it, whatever stands between that and the bracket. -/
theorem beginsWithToken_class {depth : Nat} {f text : List Char} {opened : OpenClass}
    {symbols : List Symbol}
    (hopen : ∀ depth inside, inside ++ [']'] <+: text → ∀ later,
      readFrom depth none (f ++ (inside ++ ']' :: later)) =
        readFrom depth (some opened) (inside ++ ']' :: later))
    (h : readFrom depth (some opened) text = .ok symbols) :
    BeginsWithToken depth (f ++ text) symbols := by
  obtain ⟨inside, rest, negated, ranges, later, rfl, hcloses, hrest, rfl⟩ := exists_closes h
  refine ⟨f ++ inside ++ [']'], rest, _, depth, later, by simp, by simp, ?_, hrest, rfl⟩
  apply Token.set
  intro depth later
  rw [List.append_assoc, hopen depth inside ⟨rest, by simp⟩]
  exact hcloses depth later

theorem beginsWithToken_bracket {depth : Nat} {text : List Char} {symbols : List Symbol}
    (h : readFrom depth none ('[' :: text) = .ok symbols) :
    BeginsWithToken depth ('[' :: text) symbols := by
  by_cases hbang : ∃ later, text = '!' :: later
  · obtain ⟨later, rfl⟩ := hbang
    exact beginsWithToken_class (f := ['[', '!']) (fun _ _ _ _ => rfl) h
  · by_cases hcaret : ∃ later, text = '^' :: later
    · obtain ⟨later, rfl⟩ := hcaret
      exact beginsWithToken_class (f := ['[', '^']) (fun _ _ _ _ => rfl) h
    · have hplain (depth : Nat) (text : List Char) (hbang : ∀ later, text = '!' :: later → False)
          (hcaret : ∀ later, text = '^' :: later → False) :
          readFrom depth none ('[' :: text) = readFrom depth (some ⟨false, [], false⟩) text := by
        rw [readFrom] <;> assumption
      rw [hplain depth text (fun later hl => hbang ⟨later, hl⟩)
        (fun later hl => hcaret ⟨later, hl⟩)] at h
      refine beginsWithToken_class (f := ['[']) (fun depth inside hprefix later => ?_) h
      -- the first character of the class is that of the text, or the bracket that closes it
      obtain ⟨rest, rfl⟩ := hprefix
      apply hplain
      · intro tail hl
        cases inside with
        | nil => simp at hl
        | cons first inside => exact hbang ⟨_, by simp at hl; simp [hl.1]; rfl⟩
      · intro tail hl
        cases inside with
        | nil => simp at hl
        | cons first inside => exact hcaret ⟨_, by simp at hl; simp [hl.1]; rfl⟩

theorem beginsWithToken_of_readFrom {depth : Nat} {c : Char} {text : List Char}
    {symbols : List Symbol} (h : readFrom depth none (c :: text) = .ok symbols) :
    BeginsWithToken depth (c :: text) symbols := by
  by_cases hspecial : isSpecial c = true
  · simp only [isSpecial, Bool.or_eq_true, beq_iff_eq] at hspecial
    rcases hspecial with ((((((rfl | rfl) | rfl) | rfl) | rfl) | rfl) | rfl)
    · cases text with
      | nil => cases h
      | cons c text =>
        have hmap : (readFrom depth none text).map (Symbol.atom (.literal c) :: ·) = .ok symbols := h
        obtain ⟨later, rfl, hrest⟩ := exists_of_map hmap
        exact ⟨['\\', c], text, _, depth, later, rfl, by simp, .escaped depth c, hrest, rfl⟩
    · exact beginsWithToken_bracket h
    · exact beginsWithToken_single (.openGroup depth) h
    · cases depth with
      | zero => cases h
      | succ depth => exact beginsWithToken_single (.closeGroup depth) h
    · exact beginsWithToken_single (.any depth) h
    · exact beginsWithToken_single (.star depth) h
    · exact beginsWithToken_single (.slash depth) h
  · rw [Bool.not_eq_true] at hspecial
    by_cases hcomma : c = ',' → depth = 0
    · have htoken := Token.plain depth c hspecial hcomma
      exact beginsWithToken_single htoken (htoken.readFrom_append text ▸ h)
    · simp only [Classical.not_imp] at hcomma
      obtain ⟨rfl, hdepth⟩ := hcomma
      obtain ⟨outer, rfl⟩ := Nat.exists_eq_succ_of_ne_zero hdepth
      exact beginsWithToken_single (.comma outer) h

/-- What can be read to the end, with all groups closed, falls apart into tokens. -/
theorem reads_of_readFrom {depth : Nat} {text : List Char} {symbols : List Symbol}
    (h : readFrom depth none text = .ok symbols) : Reads depth text symbols 0 := by
  induction hlength : text.length using Nat.strongRecOn generalizing depth text symbols with
  | ind length ih =>
    cases text with
    | nil =>
      cases depth with
      | zero =>
        cases h
        exact .nil 0
      | succ depth => simp [readFrom] at h
    | cons c text =>
      obtain ⟨token, rest, symbol, middle, later, hsplit, hne, htoken, hrest, rfl⟩ :=
        beginsWithToken_of_readFrom h
      have hshort : rest.length < length := by
        have hlen := congrArg List.length hsplit
        have hpos := List.length_pos_iff.mpr hne
        simp only [List.length_append] at hlen
        omega
      rw [hsplit]
      exact .cons htoken (ih rest.length hshort hrest rfl)

theorem reads_of_read {text : List Char} {symbols : List Symbol} (h : read text = .ok symbols) :
    Reads 0 text symbols 0 :=
  reads_of_readFrom h

theorem Reads.read_eq {text : List Char} {symbols : List Symbol} (h : Reads 0 text symbols 0) :
    read text = .ok symbols := by
  have hread := h.readFrom_append []
  rw [List.append_nil] at hread
  rw [read, hread]
  simp [readFrom, Except.map]

/-! ## Texts one behind the other -/

theorem Reads.append {depth middle after : Nat} {text rest : List Char}
    {symbols later : List Symbol} (h : Reads depth text symbols middle)
    (h' : Reads middle rest later after) : Reads depth (text ++ rest) (symbols ++ later) after := by
  induction h with
  | nil => exact h'
  | cons htoken _ ih =>
    rw [List.append_assoc, List.cons_append]
    exact .cons htoken (ih h')

theorem Reads.concat_inv {depth after : Nat} {text : List Char} {symbols : List Symbol}
    {symbol : Symbol} (h : Reads depth text (symbols ++ [symbol]) after) :
    ∃ front token middle, text = front ++ token ∧ Reads depth front symbols middle ∧
      Token middle token symbol after := by
  induction symbols generalizing depth text with
  | nil =>
    cases h with
    | cons htoken hrest =>
      cases hrest
      exact ⟨[], _, depth, by simp, .nil depth, htoken⟩
  | cons first symbols ih =>
    cases h with
    | cons hfirst hrest =>
      obtain ⟨front, token, middle, rfl, hfront, htoken⟩ := ih hrest
      exact ⟨_ ++ front, token, middle, by simp, .cons hfirst hfront, htoken⟩

/-! ## What the ends of a text show -/

/-- A slash, escaped or not. -/
def IsSlash (symbol : Symbol) : Prop :=
  symbol = .slash ∨ symbol = .atom (.literal '/')

theorem Token.ne_nil {depth after : Nat} {token : List Char} {symbol : Symbol}
    (h : Token depth token symbol after) : token ≠ [] := by
  cases h <;> simp

theorem Token.getLast?_slash {depth after : Nat} {token : List Char} {symbol : Symbol}
    (h : Token depth token symbol after) : token.getLast? = some '/' ↔ IsSlash symbol := by
  cases h with
  | plain _ c hc =>
    have hne : c ≠ '/' := fun h => by simp [h, isSpecial] at hc
    simp [IsSlash, hne]
  | _ => simp [IsSlash]

theorem Token.of_getLast?_star {depth after : Nat} {token : List Char} {symbol : Symbol}
    (h : Token depth token symbol after) (hlast : token.getLast? = some '*') :
    depth = after ∧ (token = ['*'] ∧ symbol = .atom .star ∨
      token = ['\\', '*'] ∧ symbol = .atom (.literal '*')) := by
  cases h with
  | plain _ c hc =>
    have hne : c ≠ '*' := fun h => by simp [h, isSpecial] at hc
    simp [hne] at hlast
  | _ => simp_all

theorem Token.eq_star {depth after : Nat} {token : List Char}
    (h : Token depth token (.atom .star) after) : token = ['*'] ∧ depth = after := by
  cases h
  exact ⟨rfl, rfl⟩

theorem Reads.eq_nil {depth after : Nat} {text : List Char} (h : Reads depth text [] after) :
    text = [] := by
  cases h
  rfl

theorem getLast?_append_token {depth after : Nat} {token : List Char} {symbol : Symbol}
    (h : Token depth token symbol after) (front : List Char) :
    (front ++ token).getLast? = token.getLast? := by
  rw [List.getLast?_append]
  cases hlast : token.getLast? with
  | none => exact absurd (List.getLast?_eq_none_iff.mp hlast) h.ne_nil
  | some c => rfl

theorem Reads.getLast?_slash {depth after : Nat} {text : List Char} {symbols : List Symbol}
    {symbol : Symbol} (h : Reads depth text (symbols ++ [symbol]) after) :
    text.getLast? = some '/' ↔ IsSlash symbol := by
  obtain ⟨front, token, middle, rfl, -, htoken⟩ := h.concat_inv
  rw [← htoken.getLast?_slash, getLast?_append_token htoken]

theorem Reads.concat_star {depth after : Nat} {text : List Char} {symbols : List Symbol}
    (h : Reads depth text (symbols ++ [.atom .star]) after) :
    ∃ front, text = front ++ ['*'] ∧ Reads depth front symbols after := by
  obtain ⟨front, token, middle, rfl, hfront, htoken⟩ := h.concat_inv
  obtain ⟨rfl, rfl⟩ := htoken.eq_star
  exact ⟨front, rfl, hfront⟩

/-- A star at the end of a text is a symbol of its own, unless a backslash stands in front of it. -/
theorem Reads.of_concat_star {depth after : Nat} {text : List Char} {symbols : List Symbol}
    (h : Reads depth (text ++ ['*']) symbols after) :
    (∃ front, symbols = front ++ [.atom .star] ∧ Reads depth text front after) ∨
      ∃ shorter front, text = shorter ++ ['\\'] ∧ symbols = front ++ [.atom (.literal '*')] ∧
        Reads depth shorter front after := by
  rcases List.eq_nil_or_concat symbols with rfl | ⟨front, symbol, rfl⟩
  · exact absurd h.eq_nil (by simp)
  · rw [List.concat_eq_append] at h ⊢
    obtain ⟨shorter, token, middle, hsplit, hfront, htoken⟩ := h.concat_inv
    have hlast := congrArg List.getLast? hsplit
    rw [getLast?_append_token htoken, List.getLast?_concat] at hlast
    obtain ⟨rfl, ⟨rfl, rfl⟩ | ⟨rfl, rfl⟩⟩ := htoken.of_getLast?_star hlast.symm
    · obtain rfl := List.append_cancel_right hsplit
      exact .inl ⟨front, rfl, hfront⟩
    · rw [show shorter ++ ['\\', '*'] = (shorter ++ ['\\']) ++ ['*'] by simp] at hsplit
      exact .inr ⟨shorter, front, List.append_cancel_right hsplit, rfl, hfront⟩

/-- Stars behind a text are symbols of their own, unless it ends in a backslash. -/
theorem Reads.of_append_stars {depth after : Nat} {text : List Char}
    (hend : text.getLast? ≠ some '\\') (count : Nat) {symbols : List Symbol}
    (h : Reads depth (text ++ List.replicate count '*') symbols after) :
    ∃ front, symbols = front ++ List.replicate count (.atom .star) ∧
      Reads depth text front after := by
  induction count generalizing symbols with
  | zero =>
    rw [List.replicate_zero, List.append_nil] at h
    exact ⟨symbols, by simp, h⟩
  | succ count ih =>
    rw [List.replicate_succ', ← List.append_assoc] at h
    obtain ⟨shorter, rfl, hshorter⟩ | ⟨rest, -, hbackslash, -, -⟩ := h.of_concat_star
    · obtain ⟨front, rfl, hfront⟩ := ih hshorter
      exact ⟨front, by rw [List.replicate_succ', List.append_assoc], hfront⟩
    · -- in front of the last star stands another one, or the end of the text
      have hlast : (text ++ List.replicate count '*').getLast? = some '\\' := by
        rw [hbackslash, List.getLast?_concat]
      cases count with
      | zero =>
        rw [List.replicate_zero, List.append_nil] at hlast
        exact absurd hlast hend
      | succ count =>
        rw [List.replicate_succ', ← List.append_assoc, List.getLast?_concat] at hlast
        cases hlast

/-! ## The first symbol -/

theorem readFrom_of_star {depth : Nat} {rest : List Char} {symbols : List Symbol}
    (h : readFrom depth none ('*' :: rest) = .ok symbols) :
    ∃ later, symbols = .atom .star :: later ∧ readFrom depth none rest = .ok later :=
  exists_of_map h

theorem readFrom_of_slash {depth : Nat} {rest : List Char} {symbols : List Symbol}
    (h : readFrom depth none ('/' :: rest) = .ok symbols) :
    ∃ later, symbols = .slash :: later ∧ readFrom depth none rest = .ok later :=
  exists_of_map h

theorem exists_cons_of_ne_star {c : Char} (hc : c ≠ '*') {rest : List Char} {symbols : List Symbol}
    (h : Reads 0 (c :: rest) symbols 0) :
    ∃ symbol later, symbols = symbol :: later ∧ symbol ≠ .atom .star := by
  generalize htext : c :: rest = text at h
  cases h with
  | nil => simp at htext
  | @cons _ _ _ token _ symbol later htoken _ =>
    refine ⟨symbol, later, rfl, fun hsymbol => ?_⟩
    subst hsymbol
    obtain ⟨rfl, -⟩ := htoken.eq_star
    exact hc (List.cons.inj htext).1

end SourceMetrics.Glob.Symbol
