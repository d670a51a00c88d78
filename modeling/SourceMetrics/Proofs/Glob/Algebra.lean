import SourceMetrics.Proofs.Glob.Language

/-! # Equations between the languages of parts

How the parts that cross segments fit together with stars and with arbitrary text. A text falls
apart at its last slash, and at its first one; the equations say this once for each.

* `leading_mul_star`: the text up to the last slash, and the name behind it.
* `star_add_star_mul_trailing`: the name in front of the first slash, and the text behind it.
* `between_mul_top`: what lies between two slashes, in front of arbitrary text. -/

namespace SourceMetrics.Glob

set_option autoImplicit false

open SourceMetrics.Path (slash)

/-! ## Arbitrary text -/

theorem top_mul_of_nil_mem {language : Language UInt8} (h : [] ∈ language) :
    ⊤ * language = (⊤ : Language UInt8) := by
  ext word
  rw [Language.mem_mul]
  exact ⟨fun _ => trivial, fun _ => ⟨word, trivial, [], h, List.append_nil word⟩⟩

theorem mul_top_of_nil_mem {language : Language UInt8} (h : [] ∈ language) :
    language * ⊤ = (⊤ : Language UInt8) := by
  ext word
  rw [Language.mem_mul]
  exact ⟨fun _ => trivial, fun _ => ⟨[], h, word, trivial, rfl⟩⟩

theorem top_mul_top : (⊤ : Language UInt8) * ⊤ = ⊤ :=
  top_mul_of_nil_mem trivial

theorem nil_mem_star : [] ∈ Atom.star.language := by
  simp [Atom.language]

theorem nil_mem_leading : [] ∈ Atom.leading.language :=
  .inl rfl

theorem star_mul_top : Atom.star.language * ⊤ = ⊤ := mul_top_of_nil_mem nil_mem_star

theorem top_mul_star : ⊤ * Atom.star.language = ⊤ := top_mul_of_nil_mem nil_mem_star

theorem leading_mul_top : Atom.leading.language * ⊤ = ⊤ := mul_top_of_nil_mem nil_mem_leading

theorem top_mul_leading : ⊤ * Atom.leading.language = ⊤ := top_mul_of_nil_mem nil_mem_leading

/-! ## Slashes -/

theorem mem_star {word : List UInt8} : word ∈ Atom.star.language ↔ slash ∉ word := by
  simp only [Atom.language, mem_manyOf, bne_iff_ne]
  exact ⟨fun h hs => h slash hs rfl, fun h byte hb he => h (he ▸ hb)⟩

/-- What leads to a segment is nothing, or ends in a slash. -/
theorem mem_leading {word : List UInt8} :
    word ∈ Atom.leading.language ↔ word = [] ∨ ∃ front, word = front ++ [slash] := by
  rw [Atom.language, Language.mem_add, Language.mem_one, Language.mem_mul]
  constructor
  · rintro (rfl | ⟨front, -, tail, rfl, rfl⟩)
    · exact .inl rfl
    · exact .inr ⟨front, rfl⟩
  · rintro (rfl | ⟨front, rfl⟩)
    · exact .inl rfl
    · exact .inr ⟨front, trivial, [slash], rfl, rfl⟩

theorem leading_mul_leading :
    Atom.leading.language * Atom.leading.language = Atom.leading.language := by
  ext word
  rw [Language.mem_mul]
  constructor
  · rintro ⟨a, ha, b, hb, rfl⟩
    rcases mem_leading.mp hb with rfl | ⟨front, rfl⟩
    · rwa [List.append_nil]
    · exact mem_leading.mpr (.inr ⟨a ++ front, by rw [List.append_assoc]⟩)
  · exact fun h => ⟨word, h, [], nil_mem_leading, List.append_nil word⟩

theorem leading_mul_star : Atom.leading.language * Atom.star.language = ⊤ := by
  ext word
  refine ⟨fun _ => trivial, fun _ => ?_⟩
  induction word with
  | nil => exact Language.mem_mul.mpr ⟨[], nil_mem_leading, [], nil_mem_star, rfl⟩
  | cons byte word ih =>
    obtain ⟨front, hfront, name, hname, rfl⟩ := Language.mem_mul.mp (ih trivial)
    rw [Language.mem_mul]
    rcases mem_leading.mp hfront with rfl | ⟨front, rfl⟩
    · by_cases hbyte : byte = slash
      · subst hbyte
        exact ⟨[slash], mem_leading.mpr (.inr ⟨[], rfl⟩), name, hname, rfl⟩
      · refine ⟨[], nil_mem_leading, byte :: name, mem_star.mpr ?_, rfl⟩
        rw [List.mem_cons, not_or]
        exact ⟨fun h => hbyte h.symm, mem_star.mp hname⟩
    · exact ⟨byte :: (front ++ [slash]), mem_leading.mpr (.inr ⟨byte :: front, rfl⟩), name, hname,
        rfl⟩

theorem trailing_eq : Atom.trailing.language = (Atom.literal '/').language * ⊤ := rfl

theorem between_eq : Atom.between.language = (Atom.literal '/').language * Atom.leading.language :=
  rfl

theorem between_mul_top : Atom.between.language * ⊤ = Atom.trailing.language := by
  rw [between_eq, mul_assoc, leading_mul_top, trailing_eq]

theorem star_add_star_mul_trailing :
    Atom.star.language + Atom.star.language * Atom.trailing.language = ⊤ := by
  ext word
  refine ⟨fun _ => trivial, fun _ => ?_⟩
  rw [Language.mem_add, Language.mem_mul]
  by_cases h : slash ∈ word
  · obtain ⟨name, rest, rfl, hname⟩ := List.eq_append_cons_of_mem h
    exact .inr ⟨name, mem_star.mpr hname, slash :: rest,
      Language.mem_mul.mpr ⟨[slash], rfl, rest, trivial, rfl⟩, rfl⟩
  · exact .inl (mem_star.mpr h)

/-! ## Rows -/

theorem rowLanguage_append (row later : List Piece) :
    rowLanguage (row ++ later) = rowLanguage row * rowLanguage later := by
  induction row with
  | nil => rw [List.nil_append, rowLanguage, one_mul]
  | cons piece row ih => rw [List.cons_append, rowLanguage, rowLanguage, ih, mul_assoc]

theorem rowLanguage_atom (part : Atom) (row : List Piece) :
    rowLanguage (.atom part :: row) = part.language * rowLanguage row := by
  rw [rowLanguage, Piece.language]

theorem rowLanguage_single (part : Atom) : rowLanguage [.atom part] = part.language := by
  rw [rowLanguage_atom, rowLanguage, mul_one]

/-- Two stars alone match everything; any other row is a glob as it stands. -/
theorem ofRow_cases (row : List Piece) :
    row = [.atom .leading] ∧ (ofRow row).language = ⊤ ∨ ofRow row = ⟨row⟩ := by
  unfold ofRow
  split
  · exact .inl ⟨rfl, rowLanguage_single .anything⟩
  · exact .inr rfl

theorem ofRow_language {row : List Piece} (h : row ≠ [.atom .leading]) :
    (ofRow row).language = rowLanguage row := by
  rcases ofRow_cases row with ⟨hrow, -⟩ | hrow
  · exact absurd hrow h
  · rw [hrow, language]

theorem ofRow_mul_top (row : List Piece) : (ofRow row).language * ⊤ = rowLanguage row * ⊤ := by
  rcases ofRow_cases row with ⟨rfl, hrow⟩ | hrow
  · rw [hrow, rowLanguage_single, leading_mul_top, top_mul_top]
  · rw [hrow, language]

theorem top_mul_ofRow (row : List Piece) : ⊤ * (ofRow row).language = ⊤ * rowLanguage row := by
  rcases ofRow_cases row with ⟨rfl, hrow⟩ | hrow
  · rw [hrow, rowLanguage_single, top_mul_leading, top_mul_top]
  · rw [hrow, language]

end SourceMetrics.Glob
