import SourceMetrics.Proofs.Glob.Groups

/-! # Resolving double stars

How the resolution of a row of symbols goes on when further symbols stand behind it. Where the row
does not end in a star, nothing behind it changes what it has been resolved into; all that is left
open is the part that was kept back.

* `resolveFrom_cons`, `resolveFrom_star` and those behind them: what the first symbols are resolved
  into. Up to three of them are taken at a time, as a pair of stars is judged by what follows.
* `Settles`: what a row is resolved into, and what is kept back at its end.
* `exists_settles`: every row that does not end in a star settles. The induction is on the length of
  the row. -/

namespace SourceMetrics.Glob.Symbol

set_option autoImplicit false

/-! ## The first symbols -/

/-- What a symbol other than a star is resolved into at once. -/
def emitted (depth : Nat) : Symbol → List Symbol
  | .slash => []
  | .atom (.literal c) => if isReplaced depth c then [] else [.atom (.literal c)]
  | symbol => [symbol]

/-- What is kept back behind a symbol other than a star. -/
def heldBehind (depth : Nat) : Symbol → Before
  | .slash => .held (.literal '/')
  | .atom (.literal c) => if isReplaced depth c then .held (.literal c) else .other
  | .openGroup => .start
  | .comma => .start
  | _ => .other

/-- The number of open groups behind a symbol. -/
def depthBehind (depth : Nat) : Symbol → Nat
  | .openGroup => depth + 1
  | .closeGroup => depth - 1
  | _ => depth

theorem Level.depthBehind_eq {depth after : Nat} {symbol : Symbol} (h : Level depth symbol after) :
    depthBehind depth symbol = after := by
  cases h <;> rfl

theorem resolveFrom_cons {symbol : Symbol} (h : symbol ≠ .atom .star) (depth : Nat)
    (before : Before) (rest : List Symbol) :
    resolveFrom depth before (symbol :: rest) =
      before.release ++ (emitted depth symbol ++
        resolveFrom (depthBehind depth symbol) (heldBehind depth symbol) rest) := by
  cases symbol with
  | atom part =>
    cases part with
    | literal c =>
      rw [resolveFrom, emitted, heldBehind]
      split <;> simp [depthBehind]
    | star => exact absurd rfl h
    | _ => rw [resolveFrom] <;> simp_all [emitted, depthBehind, heldBehind]
  | _ => rfl

theorem resolveFrom_other_star (depth : Nat) (rest : List Symbol) :
    resolveFrom depth .other (.atom .star :: rest) =
      .atom .star :: resolveFrom depth .other rest := by
  rw [resolveFrom] <;> simp [Before.release]

theorem resolveFrom_star {symbol : Symbol} (h : symbol ≠ .atom .star) (depth : Nat)
    (before : Before) (rest : List Symbol) :
    resolveFrom depth before (.atom .star :: symbol :: rest) =
      before.release ++ .atom .star :: resolveFrom depth .other (symbol :: rest) := by
  rw [resolveFrom] <;> simp_all

theorem resolveFrom_start_stars {symbol : Symbol} (h : symbol ≠ .slash) (depth : Nat)
    (rest : List Symbol) :
    resolveFrom depth .start (.atom .star :: .atom .star :: symbol :: rest) =
      .atom .star :: .atom .star :: resolveFrom depth .other (symbol :: rest) := by
  rw [resolveFrom] <;> simp_all [resolveFrom_other_star, Before.release]

theorem resolveFrom_held_stars {symbol : Symbol} (h : symbol ≠ .slash) (depth : Nat) (part : Atom)
    (rest : List Symbol) :
    resolveFrom depth (.held part) (.atom .star :: .atom .star :: symbol :: rest) =
      if isBranchEnd (symbol :: rest) then
        .atom (closing part) :: resolveFrom depth .other (symbol :: rest)
      else
        .atom part :: .atom .star :: .atom .star :: resolveFrom depth .other (symbol :: rest) := by
  rw [resolveFrom]
  simp_all

theorem nests_emitted {depth after : Nat} {symbol : Symbol} (h : Level depth symbol after) :
    Nests depth (emitted depth symbol) after := by
  cases h with
  | atom _ part =>
    cases part with
    | literal c =>
      rw [emitted]
      split
      · exact .nil depth
      · exact nests_atom depth _
    | _ => exact nests_atom depth _
  | slash => exact .nil depth
  | openGroup => exact (Level.openGroup depth).nests
  | comma => exact (Level.comma _).nests
  | closeGroup => exact (Level.closeGroup _).nests

theorem nests_release (depth : Nat) (before : Before) : Nests depth before.release depth := by
  cases before with
  | held part => exact nests_atom depth part
  | _ => exact .nil depth

theorem nests_resolveFrom (depth : Nat) (before : Before) (symbols : List Symbol) :
    ∀ {after : Nat}, Nests depth symbols after →
      Nests depth (resolveFrom depth before symbols) after := by
  have hrelease (depth : Nat) (before : Before) {after : Nat} {rest : List Symbol}
      (h : Nests depth rest after) : Nests depth (before.release ++ rest) after :=
    (nests_release depth before).append h
  induction depth, before, symbols using resolveFrom.induct with
  | case1 depth before =>
    intro after h
    simpa [resolveFrom] using hrelease depth before h
  | case10 depth before part rest _ _ _ _ _ ih =>
    -- a part by itself: none of the patterns of stars in front of it applies
    intro after h
    rw [resolveFrom] <;> try assumption
    exact hrelease depth before (nests_cons_atom.mpr (ih (nests_cons_atom.mp h)))
  | _ =>
    intro after h
    simp_all [resolveFrom]

/-! ## What is kept back -/

/-- A part that can be kept back outside of all groups. -/
def IsCrossing (part : Atom) : Prop :=
  part = .literal '/' ∨ part = .leading ∨ part = .between

theorem isCrossing_crossing (part : Atom) : IsCrossing (crossing part) := by
  cases part <;> simp [IsCrossing, crossing]

/-- What is kept back outside of all groups behind a given last symbol: a slash, or what has become
of it, and otherwise nothing. -/
def EndsAs (symbol : Symbol) (out : List Symbol) (held : Before) : Prop :=
  (IsSlash symbol → ∃ part, held = .held part ∧ IsCrossing part) ∧
    (¬ IsSlash symbol → held = .other ∧ ∃ front, out = front ++ [symbol])

/-- The symbols are resolved into `out` and leave `held` kept back, whatever stands behind them. -/
structure Settles (depth after : Nat) (before : Before) (symbols out : List Symbol)
    (held : Before) : Prop where
  resolve : ∀ rest, resolveFrom depth before (symbols ++ rest) = out ++ resolveFrom after held rest
  nests : Nests depth out after
  nil : symbols = [] → out = [] ∧ held = before
  -- the front of a path is only ever kept back at the front
  leading : after = 0 → held = .held .leading →
    depth = 0 ∧ (before = .start ∨ before = .held .leading) ∧ out = []
  -- outside of all groups the last symbol tells what is kept back
  last : after = 0 → ∀ symbol, symbols.getLast? = some symbol → EndsAs symbol out held

/-- Some symbols that are resolved at once, in front of symbols that settle. -/
theorem Settles.extend {depth middle after : Nat} {before next held : Before}
    {f symbols more out : List Symbol} (h : Settles middle after next symbols out held)
    (hfront : f ≠ [])
    (hresolve : ∀ rest, resolveFrom depth before (f ++ symbols ++ rest) =
      more ++ resolveFrom middle next (symbols ++ rest))
    (hnests : Nests depth more middle)
    (hleading : middle = 0 → next = .start ∨ next = .held .leading →
      depth = 0 ∧ (before = .start ∨ before = .held .leading) ∧ more = [])
    (hlast : symbols = [] → middle = 0 → ∀ symbol, f.getLast? = some symbol →
      EndsAs symbol more next) :
    Settles depth after before (f ++ symbols) (more ++ out) held where
  resolve rest := by rw [hresolve, h.resolve, List.append_assoc]
  nests := hnests.append h.nests
  nil hnil := absurd (List.append_eq_nil_iff.mp hnil).1 hfront
  leading hafter hheld := by
    obtain ⟨hmiddle, hnext, rfl⟩ := h.leading hafter hheld
    obtain ⟨hdepth, hbefore, rfl⟩ := hleading hmiddle hnext
    exact ⟨hdepth, hbefore, rfl⟩
  last hafter symbol hsymbol := by
    cases hempty : symbols with
    | nil =>
      obtain ⟨rfl, rfl⟩ := h.nil hempty
      subst hempty
      rw [List.append_nil] at hsymbol ⊢
      have hmiddle : middle = after := by
        cases h.nests
        rfl
      exact hlast rfl (hmiddle.trans hafter) symbol hsymbol
    | cons first symbols' =>
      have hinner : symbols.getLast? = some symbol := by
        rw [List.getLast?_append] at hsymbol
        cases hl : symbols.getLast? with
        | none => simp [hempty] at hl
        | some other => simpa [hl] using hsymbol
      obtain ⟨hslash, hother⟩ := h.last hafter symbol hinner
      refine ⟨hslash, fun hne => ?_⟩
      obtain ⟨hheld, front', rfl⟩ := hother hne
      exact ⟨hheld, more ++ front', by rw [List.append_assoc]⟩

theorem endsAs_emitted {depth : Nat} {symbol : Symbol} (h : Level depth symbol 0)
    (hstar : symbol ≠ .atom .star) (front : List Symbol) :
    EndsAs symbol (front ++ emitted depth symbol) (heldBehind depth symbol) := by
  cases h with
  | atom _ part =>
    cases part with
    | literal c =>
      by_cases hc : c = '/'
      · subst hc
        exact ⟨fun _ => ⟨_, rfl, .inl rfl⟩, fun hne => absurd (.inr rfl) hne⟩
      · have hkept : isReplaced 0 c = false := by simp [isReplaced, hc]
        refine ⟨fun hslash => ?_, fun _ => ?_⟩
        · simp [IsSlash, hc] at hslash
        · simp [heldBehind, emitted, hkept]
    | star => exact absurd rfl hstar
    | _ => exact ⟨fun hslash => by simp [IsSlash] at hslash, fun _ => ⟨rfl, front, rfl⟩⟩
  | slash => exact ⟨fun _ => ⟨_, rfl, .inl rfl⟩, fun hne => absurd (.inl rfl) hne⟩
  | closeGroup => exact ⟨fun hslash => by simp [IsSlash] at hslash, fun _ => ⟨rfl, front, rfl⟩⟩

theorem settles_nil (depth : Nat) (before : Before) : Settles depth depth before [] [] before where
  resolve rest := rfl
  nests := .nil depth
  nil _ := ⟨rfl, rfl⟩
  leading hafter hheld := ⟨hafter, .inr hheld, rfl⟩
  last _ symbol hsymbol := by simp at hsymbol

theorem heldBehind_ne {depth : Nat} {symbol : Symbol} (h : Level depth symbol 0) :
    ¬ (heldBehind depth symbol = .start ∨ heldBehind depth symbol = .held .leading) := by
  cases h with
  | atom _ part =>
    cases part with
    | literal c =>
      rw [heldBehind]
      split <;> simp
    | _ => simp [heldBehind]
  | _ => simp [heldBehind]

theorem Settles.cons {depth middle after : Nat} {before held : Before} {symbol : Symbol}
    {symbols out : List Symbol} (hstar : symbol ≠ .atom .star) (hlevel : Level depth symbol middle)
    (h : Settles middle after (heldBehind depth symbol) symbols out held) :
    Settles depth after before (symbol :: symbols)
      (before.release ++ emitted depth symbol ++ out) held := by
  refine h.extend (f := [symbol]) (by simp) (fun rest => ?_) ?_ ?_ ?_
  · rw [List.append_assoc, List.singleton_append, resolveFrom_cons hstar, hlevel.depthBehind_eq,
      List.append_assoc]
  · exact (nests_release depth before).append (nests_emitted hlevel)
  · intro hmiddle hnext
    subst hmiddle
    exact absurd hnext (heldBehind_ne hlevel)
  · intro _ hmiddle last hlast
    subst hmiddle
    obtain rfl : symbol = last := by simpa using hlast
    exact endsAs_emitted hlevel hstar before.release

theorem Settles.behind_stars {depth after : Nat} {before held : Before}
    {s symbols more out : List Symbol} (h : Settles depth after .other symbols out held)
    (hstars : s ≠ []) (hsymbols : symbols ≠ []) (hmore : Nests depth more depth)
    (hresolve : ∀ rest, resolveFrom depth before (s ++ symbols ++ rest) =
      more ++ resolveFrom depth .other (symbols ++ rest)) :
    Settles depth after before (s ++ symbols) (more ++ out) held :=
  h.extend hstars hresolve hmore (fun _ hnext => by simp at hnext) fun hnil => absurd hnil hsymbols

theorem isBranchEnd_cons (symbol : Symbol) (rest later : List Symbol) :
    isBranchEnd (symbol :: rest) = isBranchEnd (symbol :: later) := by
  cases symbol <;> rfl

theorem Settles.crossing {depth after : Nat} {before held : Before} {part : Atom}
    {symbols out : List Symbol} (h : Settles depth after (.held part) symbols out held)
    (hpart : IsCrossing part) (hleading : part = .leading → before = .start ∨ before = .held .leading)
    (hresolve : ∀ rest, resolveFrom depth before (.atom .star :: .atom .star :: .slash :: rest) =
      resolveFrom depth (.held part) rest) :
    Settles depth after before (.atom .star :: .atom .star :: .slash :: symbols) out held := by
  refine h.extend (f := [.atom .star, .atom .star, .slash]) (by simp) (fun rest => ?_) (.nil depth)
    (fun hdepth hnext => ⟨hdepth, hleading (by simpa using hnext), rfl⟩) ?_
  · simp [hresolve]
  · intro _ _ symbol hlast
    obtain rfl : Symbol.slash = symbol := by simpa using hlast
    exact ⟨fun _ => ⟨part, rfl, hpart⟩, fun hne => absurd (.inl rfl) hne⟩

theorem Settles.stars {depth after : Nat} {before held : Before} {symbol : Symbol}
    {symbols out : List Symbol} (h : Settles depth after .other (symbol :: symbols) out held)
    (hslash : symbol ≠ .slash) (hbefore : before ≠ .other) :
    ∃ out, Settles depth after before (.atom .star :: .atom .star :: symbol :: symbols) out held := by
  cases before with
  | start =>
    refine ⟨[.atom .star, .atom .star] ++ out, h.behind_stars (s := [.atom .star, .atom .star])
      (by simp) (by simp) (.cons (.atom depth _) (nests_atom depth _)) fun rest => ?_⟩
    exact resolveFrom_start_stars hslash depth (symbols ++ rest)
  | other => exact absurd rfl hbefore
  | held part =>
    cases hend : isBranchEnd (symbol :: symbols) with
    | true =>
      refine ⟨[.atom (closing part)] ++ out, h.behind_stars (s := [.atom .star, .atom .star])
        (by simp) (by simp) (nests_atom depth _) fun rest => ?_⟩
      have hresolve := resolveFrom_held_stars hslash depth part (symbols ++ rest)
      rwa [isBranchEnd_cons symbol _ symbols, hend, if_pos rfl] at hresolve
    | false =>
      refine ⟨[.atom part, .atom .star, .atom .star] ++ out,
        h.behind_stars (s := [.atom .star, .atom .star]) (by simp) (by simp)
          (.cons (.atom depth _) (.cons (.atom depth _) (nests_atom depth _)))
          fun rest => ?_⟩
      have hresolve := resolveFrom_held_stars hslash depth part (symbols ++ rest)
      rwa [isBranchEnd_cons symbol _ symbols, hend, if_neg (by simp)] at hresolve

/-- A star that no further star stands next to, or that stars leave as it is. -/
theorem Settles.star {depth after : Nat} {before held : Before} {symbol : Symbol}
    {symbols out : List Symbol} (h : Settles depth after .other (symbol :: symbols) out held)
    (hstar : before = .other ∨ symbol ≠ .atom .star) :
    Settles depth after before (.atom .star :: symbol :: symbols)
      (before.release ++ [.atom .star] ++ out) held := by
  have hmore : Nests depth (before.release ++ [.atom .star]) depth :=
    (nests_release depth before).append (nests_atom depth _)
  refine h.behind_stars (s := [.atom .star]) (by simp) (by simp) hmore fun rest => ?_
  rcases hstar with rfl | hstar
  · exact resolveFrom_other_star depth _
  · simpa using resolveFrom_star hstar depth before (symbols ++ rest)

/-- Two stars that make up a segment, whatever what is kept back becomes. -/
theorem exists_settles_segment {depth after : Nat} {before : Before} {symbols : List Symbol}
    (h : ∀ before, ∃ out held, Settles depth after before symbols out held)
    (hbefore : before ≠ .other) : ∃ out held,
      Settles depth after before (.atom .star :: .atom .star :: .slash :: symbols) out held := by
  cases before with
  | start =>
    obtain ⟨out, held, h⟩ := h (.held .leading)
    exact ⟨out, held, h.crossing (.inr (.inl rfl)) (fun _ => .inl rfl) fun _ => rfl⟩
  | other => exact absurd rfl hbefore
  | held part =>
    obtain ⟨out, held, h⟩ := h (.held (Symbol.crossing part))
    refine ⟨out, held, h.crossing (isCrossing_crossing part) (fun hpart => ?_) fun _ => rfl⟩
    cases part <;> simp_all [Symbol.crossing]

theorem getLast?_ne_of_cons {first last : Symbol} {rest : List Symbol}
    (h : (first :: rest).getLast? ≠ some last) : rest.getLast? ≠ some last := by
  cases rest with
  | nil => simp
  | cons second rest => rwa [List.getLast?_cons_cons] at h

/-- **A row of symbols that does not end in a star settles.** -/
theorem exists_settles {depth after : Nat} {symbols : List Symbol}
    (hnests : Nests depth symbols after) (hend : symbols.getLast? ≠ some (.atom .star))
    (before : Before) : ∃ out held, Settles depth after before symbols out held := by
  induction hlength : symbols.length using Nat.strongRecOn
    generalizing depth symbols before with
  | ind length ih =>
    cases hnests with
    | nil => exact ⟨[], before, settles_nil _ before⟩
    | @cons _ _ _ first rest hlevel hrest =>
      have hrestEnd := getLast?_ne_of_cons hend
      simp only [List.length_cons] at hlength
      by_cases hfirst : first = .atom .star
      · subst hfirst
        cases hlevel
        cases hrest with
        | nil => simp at hend
        | @cons _ _ _ second rest hlevel hrest =>
          simp only [List.length_cons] at hlength
          by_cases hstar : before = .other ∨ second ≠ .atom .star
          · obtain ⟨out, held, h⟩ := ih (rest.length + 1) (by omega) (.cons hlevel hrest) hrestEnd
              .other rfl
            exact ⟨_, held, h.star hstar⟩
          · simp only [not_or, ne_eq, Classical.not_not] at hstar
            obtain ⟨hbefore, rfl⟩ := hstar
            cases hlevel
            cases hrest with
            | nil => simp at hend
            | @cons _ _ _ third rest hlevel hrest =>
              have hthirdEnd := getLast?_ne_of_cons hrestEnd
              simp only [List.length_cons] at hlength
              by_cases hthird : third = .slash
              · subst hthird
                cases hlevel
                have hfourthEnd := getLast?_ne_of_cons hthirdEnd
                exact exists_settles_segment
                  (fun next => ih rest.length (by omega) hrest hfourthEnd next rfl) hbefore
              · -- two stars of their own
                obtain ⟨out, held, h⟩ := ih (rest.length + 1) (by omega) (.cons hlevel hrest)
                  hthirdEnd .other rfl
                obtain ⟨out, h⟩ := h.stars hthird hbefore
                exact ⟨out, held, h⟩
      · obtain ⟨out, held, h⟩ := ih rest.length (by omega) hrest hrestEnd
          (heldBehind depth first) rfl
        exact ⟨_, held, h.cons hfirst hlevel⟩

end SourceMetrics.Glob.Symbol
