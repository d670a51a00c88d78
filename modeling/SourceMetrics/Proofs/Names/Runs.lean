import Mathlib.Data.List.DropRight
import SourceMetrics.Names.Token
import SourceMetrics.Proofs.Phrase.Findings
import SourceMetrics.Proofs.Phrase.Places
import SourceMetrics.Proofs.Respelling.Names
import SourceMetrics.Proofs.Text.Ends

/-! # Tokens and runs of name characters

A token lies in a longest run of characters that can stand in a name, and what stands around the run
has no part in it. Dollar signs at the end of the run are dropped, and the token is what is left from
the first edge on at which a name can begin. So a run holds at most one token.

* `token?`: the token of a run.
* `tokens_eq_filterMap_runs`: the tokens of a text are those of its runs, in order.
* `countPlaces_beginsRun`: the runs are counted at the places where they begin.
* `mem_counts_iff_tokenAt`: the counts of a text. -/

namespace SourceMetrics.Names

set_option autoImplicit false

open Text

/-- What is left of a text from the first edge on at which a name can begin, given the character in
front of the text, if any. -/
def fromEdge (before : Option Char) : List Char → Option (List Char)
  | [] => none
  | c :: rest =>
    if isEdge before (c :: rest) && beginsName c then some (c :: rest) else fromEdge (some c) rest

/-- The token of a longest run of name characters, if it holds one. The character in front of such a
run, if any, is no word character. -/
def token? (run : List Char) : Option (List Char) :=
  fromEdge none (run.rdropWhile (· == '$'))

/-- The longest runs of name characters in a text, from left to right. -/
def runs (text : List Char) : List (List Char) :=
  (text.splitOnP fun c => !inName c).filter fun run => !run.isEmpty

/-- A run of name characters that does not begin with a digit. -/
def IsName (name : List Char) : Prop :=
  (∃ c ∈ name.head?, beginsName c = true) ∧ ∀ c ∈ name, inName c = true

/-- At this place a longest run of name characters begins. -/
def RunAt (run front rest : List Char) : Prop :=
  run ≠ [] ∧ (∀ c ∈ front.getLast?, inName c = false) ∧ rest.takeWhile inName = run

/-- At this place a longest run of name characters begins, and its token is `name`. -/
def TokenAt (name front rest : List Char) : Prop :=
  ∃ run, RunAt run front rest ∧ token? run = some name

variable {before : Option Char} {c : Char} {run front rest name : List Char}

theorem isName_iff : IsName name ↔ name.head?.any beginsName = true ∧ name.all inName = true := by
  rw [IsName, Option.any_eq_true, List.all_eq_true]
  rfl

instance : DecidablePred IsName :=
  fun _ => decidable_of_iff' _ isName_iff

/-! ## Runs -/

theorem runs_append_cons (hc : inName c = false) (front rest : List Char) :
    runs (front ++ c :: rest) = runs front ++ runs rest := by
  have hsplits : (!inName c) = true := by rw [hc, Bool.not_false]
  rw [runs, List.splitOnP_append_cons front rest hsplits, List.filter_append]
  rfl

theorem runs_of_forall (hrun : ∀ c ∈ run, inName c = true) :
    runs run = if run.isEmpty then [] else [run] := by
  have hnever : ∀ c ∈ run, (!inName c) = false := by
    intro c hc
    rw [hrun c hc, Bool.not_true]
  rw [runs, List.splitOnP_eq_singleton hnever]
  cases run with
  | nil => rfl
  | cons c run => rfl

/-- A text is a run, or a run with another character and a text behind it. -/
theorem induction_runs {motive : List Char → Prop}
    (last : ∀ run, (∀ c ∈ run, inName c = true) → motive run)
    (behind : ∀ run c rest, (∀ d ∈ run, inName d = true) → inName c = false → motive rest →
      motive (run ++ c :: rest)) (text : List Char) : motive text := by
  induction hlength : text.length using Nat.strong_induction_on generalizing text with
  | _ length ih =>
    obtain ⟨run, rest, rfl, hrun, hstops⟩ := exists_run inName text
    cases rest with
    | nil =>
      rw [List.append_nil]
      exact last run hrun
    | cons c rest =>
      refine behind run c rest hrun (stops_cons.mp hstops) (ih rest.length ?_ rest rfl)
      rw [← hlength, List.length_append, List.length_cons]
      omega

/-! ## Names at the front of a text -/

theorem name?_append (hrun : ∀ c ∈ run, inName c = true) (hrest : Stops inName rest) :
    name? (run ++ rest) = if run.head?.any beginsName then some run else none := by
  rw [name?, takeWhile_append_of_stops hrun hrest]
  cases run with
  | cons c run => rfl
  | nil =>
    -- what cannot stand in a name does not begin one
    cases rest with
    | nil => rfl
    | cons c rest =>
      have hc : beginsName c = false := by
        rw [beginsName, stops_cons.mp hrest, Bool.false_and]
      rw [List.nil_append, List.head?_cons, Option.any_some, hc]
      rfl

theorem name?_eq_some_iff {text : List Char} :
    name? text = some name ↔ IsName name ∧ ∃ behind, text = name ++ behind ∧ Stops inName behind := by
  constructor
  · intro h
    obtain ⟨front, behind, rfl, hfront, hstops⟩ := exists_run inName text
    rw [name?_append hfront hstops] at h
    split at h
    · rename_i hbegins
      obtain rfl := Option.some.inj h
      exact ⟨⟨(Option.any_eq_true _ _).mp hbegins, hfront⟩, behind, rfl, hstops⟩
    · cases h
  · rintro ⟨⟨hbegins, hall⟩, behind, rfl, hstops⟩
    rw [name?_append hall hstops, if_pos ((Option.any_eq_true _ _).mpr hbegins)]

theorem ne_of_inName {c d : Char} (hc : inName c = true) (hd : inName d = false) : c ≠ d := by
  rintro rfl
  rw [hc] at hd
  cases hd

theorem isBlank_eq_false_of_inName {c : Char} (h : inName c = true) : isBlank c = false := by
  obtain hword | hdollar := Bool.or_eq_true_iff.mp h
  · exact isBlank_eq_false_of_isWord hword
  · rw [eq_of_beq hdollar]
    decide

theorem all_isBlank_space : ∀ c ∈ [' '], isBlank c = true :=
  List.all_eq_true.mp (by decide)

theorem inName_eq_false_of_isBlank {c : Char} (h : isBlank c = true) : inName c = false := by
  rw [Bool.eq_false_iff]
  intro hname
  rw [isBlank_eq_false_of_inName hname] at h
  cases h

theorem IsName.stops_isBlank (h : IsName name) (rest : List Char) : Stops isBlank (name ++ rest) := by
  obtain ⟨⟨c, hc, -⟩, hall⟩ := h
  cases name with
  | nil => cases hc
  | cons d name => exact stops_cons.mpr (isBlank_eq_false_of_inName (hall d List.mem_cons_self))

/-! ## The token of a run -/

theorem dropDollars_eq_rdropWhile (run : List Char) :
    dropDollars run = run.rdropWhile (· == '$') :=
  rfl

theorem dropDollars_append {dollars : List Char} (hdollars : ∀ c ∈ dollars, c = '$')
    (hfront : ∀ c ∈ front.getLast?, c ≠ '$') : dropDollars (front ++ dollars) = front := by
  have hall : ∀ c ∈ dollars, (c == '$') = true := fun c hc => beq_iff_eq.mpr (hdollars c hc)
  have hstops : Stops (· == '$') front.reverse := by
    intro c hc
    rw [List.head?_reverse] at hc
    exact beq_false_of_ne (hfront c hc)
  rw [dropDollars_eq_rdropWhile, rdropWhile_append_of_stops hall hstops]

/-- A run is parted in front of the dollar signs that end it. -/
theorem exists_dollars (run : List Char) :
    ∃ front dollars, run = front ++ dollars ∧ (∀ c ∈ dollars, c = '$') ∧
      ∀ c ∈ front.getLast?, c ≠ '$' := by
  induction run using List.reverseRecOn with
  | nil => exact ⟨[], [], rfl, by simp, by simp⟩
  | append_singleton run c ih =>
    by_cases hc : c = '$'
    · obtain ⟨front, dollars, rfl, hdollars, hfront⟩ := ih
      refine ⟨front, dollars ++ [c], List.append_assoc .., ?_, hfront⟩
      intro d hd
      rw [List.mem_append, List.mem_singleton] at hd
      obtain hd | rfl := hd
      · exact hdollars d hd
      · exact hc
    · refine ⟨run ++ [c], [], (List.append_nil _).symm, by simp, ?_⟩
      simpa using hc

/-- Where a run ends in dollar signs, a token reaches up to them. -/
theorem tokenReader_append {dollars : List Char} (hfront : ∀ c ∈ front, inName c = true)
    (hdollars : ∀ c ∈ dollars, c = '$') (hlast : ∀ c ∈ front.getLast?, c ≠ '$')
    (hrest : Stops inName rest) :
    tokenReader before (front ++ (dollars ++ rest)) =
      match front with
      | [] => none
      | c :: others =>
        if isEdge before (c :: others) && beginsName c then some (c :: others, others.length + 1)
        else none := by
  have hrun : ∀ c ∈ front ++ dollars, inName c = true := by
    intro c hc
    obtain hc | hc := List.mem_append.mp hc
    · exact hfront c hc
    · rw [hdollars c hc]
      decide
  have hname : (name? (front ++ dollars ++ rest)).map dropDollars =
      if (front ++ dollars).head?.any beginsName then some front else none := by
    rw [name?_append hrun hrest]
    split
    · rw [Option.map_some, dropDollars_append hdollars hlast]
    · rfl
  rw [tokenReader, ← List.append_assoc, hname]
  cases front with
  | nil =>
    cases (([] ++ dollars : List Char).head?.any beginsName) with
    | false => simp
    | true => simp
  | cons c others =>
    have hedge : isEdge before (c :: others ++ dollars ++ rest) = isEdge before (c :: others) := rfl
    rw [hedge, List.cons_append, List.head?_cons, Option.any_some]
    cases hbegins : beginsName c with
    | false => simp [hbegins]
    | true => simp [hbegins]

/-! ## Scanning run by run -/

theorem scanFrom_of_stops (hrest : Stops inName rest) :
    tokenReader.scanFrom 0 before rest = tokens rest := by
  cases rest with
  | nil => rfl
  | cons c rest =>
    have hc : beginsName c = false := by
      rw [beginsName, stops_cons.mp hrest, Bool.false_and]
    rw [tokens, Reader.scan, Reader.scanFrom_of_none (tokenReader_eq_none hc),
      Reader.scanFrom_of_none (tokenReader_eq_none hc)]

/-- Dollar signs at the end of a run hold no token. -/
theorem scanFrom_dollars {dollars : List Char} (hdollars : ∀ c ∈ dollars, c = '$')
    (hrest : Stops inName rest) :
    tokenReader.scanFrom 0 before (dollars ++ rest) = tokens rest := by
  induction dollars generalizing before with
  | nil => exact scanFrom_of_stops hrest
  | cons c dollars ih =>
    have hempty : ∀ d ∈ ([] : List Char), inName d = true := by simp
    have hnone : tokenReader before (c :: (dollars ++ rest)) = none :=
      tokenReader_append hempty hdollars (by simp) hrest
    rw [List.cons_append, Reader.scanFrom_of_none hnone]
    exact ih fun d hd => hdollars d (.tail c hd)

/-- The induction is on the run without its dollar signs: a token is read at the first edge at which
a name can begin, and then it covers all that is left of the run. -/
theorem scanFrom_run {dollars : List Char} (hfront : ∀ c ∈ front, inName c = true)
    (hdollars : ∀ c ∈ dollars, c = '$') (hlast : ∀ c ∈ front.getLast?, c ≠ '$')
    (hrest : Stops inName rest) :
    tokenReader.scanFrom 0 before (front ++ (dollars ++ rest)) =
      (fromEdge before front).toList ++ tokens rest := by
  induction front generalizing before with
  | nil => exact scanFrom_dollars hdollars hrest
  | cons c others ih =>
    have hread : tokenReader before (c :: (others ++ (dollars ++ rest))) =
        if isEdge before (c :: others) && beginsName c then some (c :: others, others.length + 1)
        else none :=
      tokenReader_append hfront hdollars hlast hrest
    rw [List.cons_append]
    by_cases hbegins : (isEdge before (c :: others) && beginsName c) = true
    · rw [if_pos hbegins] at hread
      rw [Reader.scanFrom_of_some hread, Nat.add_sub_cancel, Reader.scanFrom_append_length,
        scanFrom_dollars hdollars hrest, fromEdge, if_pos hbegins]
      rfl
    · rw [if_neg hbegins] at hread
      have hothers : ∀ d ∈ others.getLast?, d ≠ '$' := by
        intro d hd
        refine hlast d ?_
        rw [List.getLast?_cons, Option.mem_def.mp hd]
        rfl
      rw [List.forall_mem_cons] at hfront
      rw [Reader.scanFrom_of_none hread, ih hfront.2 hothers, fromEdge, if_neg hbegins]

theorem tokens_append_of_stops (hrun : ∀ c ∈ run, inName c = true) (hrest : Stops inName rest) :
    tokens (run ++ rest) = (token? run).toList ++ tokens rest := by
  obtain ⟨front, dollars, rfl, hdollars, hlast⟩ := exists_dollars run
  have hfront : ∀ c ∈ front, inName c = true := fun c hc => hrun c (List.mem_append_left _ hc)
  rw [token?, ← dropDollars_eq_rdropWhile, dropDollars_append hdollars hlast, List.append_assoc]
  exact scanFrom_run hfront hdollars hlast hrest

theorem tokens_cons (hc : inName c = false) (rest : List Char) : tokens (c :: rest) = tokens rest := by
  have hbegins : beginsName c = false := by rw [beginsName, hc, Bool.false_and]
  have hword : (some c).any isWord = (none : Option Char).any isWord :=
    (Bool.or_eq_false_iff.mp hc).1
  rw [tokens, Reader.scan, Reader.scanFrom_of_none (tokenReader_eq_none hbegins)]
  exact Reader.scanFrom_before isSteady_tokenReader hword rest

theorem filterMap_runs_of_forall (hrun : ∀ c ∈ run, inName c = true) :
    (runs run).filterMap token? = (token? run).toList := by
  rw [runs_of_forall hrun]
  cases run with
  | nil => rfl
  | cons c run =>
    rw [List.isEmpty_cons, if_neg Bool.false_ne_true, List.filterMap_cons, List.filterMap_nil]
    cases token? (c :: run) with
    | none => rfl
    | some name => rfl

/-- The tokens of a text are those of its runs. -/
theorem tokens_eq_filterMap_runs (text : List Char) :
    tokens text = (runs text).filterMap token? := by
  induction text using induction_runs with
  | last run hrun =>
    have htokens := tokens_append_of_stops hrun stops_nil
    rw [List.append_nil] at htokens
    rw [htokens, filterMap_runs_of_forall hrun]
    exact List.append_nil _
  | behind run c rest hrun hc ih =>
    rw [tokens_append_of_stops hrun (stops_cons.mpr hc), tokens_cons hc, ih, runs_append_cons hc,
      List.filterMap_append, filterMap_runs_of_forall hrun]

/-! ## Runs and places -/

/-- At this place a longest run of name characters with a certain property begins. -/
def BeginsRun (holds : List Char → Bool) (front rest : List Char) : Prop :=
  ∃ run, RunAt run front rest ∧ holds run = true

variable {holds : List Char → Bool}

theorem not_beginsRun_of_getLast? (hc : inName c = true) (hlast : front.getLast? = some c) :
    ¬ BeginsRun holds front rest := by
  rintro ⟨run, ⟨-, hbefore, -⟩, -⟩
  rw [hbefore c hlast] at hc
  cases hc

theorem not_beginsRun_cons (hc : inName c = false) : ¬ BeginsRun holds front (c :: rest) := by
  rintro ⟨run, ⟨hne, -, hrun⟩, -⟩
  rw [List.takeWhile_cons_of_neg (by simp [hc])] at hrun
  exact hne hrun.symm

/-- What stands in front of another character has no part in the runs behind it. -/
theorem beginsRun_behind (hc : inName c = false) (passed : List Char) :
    BeginsRun holds (passed ++ c :: front) rest ↔ BeginsRun holds front rest := by
  have hlast : (∀ d ∈ (passed ++ c :: front).getLast?, inName d = false) ↔
      ∀ d ∈ front.getLast?, inName d = false := by
    rw [List.getLast?_append_of_ne_nil _ (List.cons_ne_nil c front), List.getLast?_cons]
    cases front.getLast? with
    | none => simpa using hc
    | some d => rfl
  simp only [BeginsRun, RunAt, hlast]

theorem beginsRun_append (hrun : ∀ c ∈ run, inName c = true) (hrest : Stops inName rest) :
    BeginsRun holds [] (run ++ rest) ↔ run ≠ [] ∧ holds run = true := by
  simp only [BeginsRun, RunAt, takeWhile_append_of_stops hrun hrest]
  constructor
  · rintro ⟨_, ⟨hne, -, rfl⟩, hholds⟩
    exact ⟨hne, hholds⟩
  · rintro ⟨hne, hholds⟩
    exact ⟨run, ⟨hne, by simp, rfl⟩, hholds⟩

/-- No run begins inside another one. -/
theorem countPlaces_inside (hrun : ∀ c ∈ run, inName c = true) (hc : inName c = true)
    (hlast : front.getLast? = some c) :
    countPlaces (run ++ rest) (fun passed behind => BeginsRun holds (front ++ passed) behind) =
      countPlaces rest fun passed behind => BeginsRun holds (front ++ (run ++ passed)) behind := by
  induction run generalizing front c with
  | nil => rfl
  | cons d run ih =>
    rw [List.forall_mem_cons] at hrun
    have hhere : ¬ BeginsRun holds (front ++ []) (d :: (run ++ rest)) := by
      rw [List.append_nil]
      exact not_beginsRun_of_getLast? hc hlast
    have hbehind : (front ++ [d]).getLast? = some d := List.getLast?_concat
    have hnext := ih hrun.2 hrun.1 hbehind
    simp only [List.append_assoc, List.singleton_append] at hnext
    rw [List.cons_append, countPlaces_cons, if_neg hhere, Nat.add_zero, hnext]
    rfl

theorem countPlaces_append_of_stops (hrun : ∀ c ∈ run, inName c = true) (hrest : Stops inName rest) :
    countPlaces (run ++ rest) (BeginsRun holds) = (runs run).countP holds +
      countPlaces rest fun passed behind => BeginsRun holds (run ++ passed) behind := by
  rw [runs_of_forall hrun]
  cases run with
  | nil =>
    rw [List.isEmpty_nil, if_pos rfl, List.countP_nil, Nat.zero_add]
    rfl
  | cons c run =>
    obtain ⟨hc, hothers⟩ := List.forall_mem_cons.mp hrun
    have hfirst : BeginsRun holds [] (c :: (run ++ rest)) ↔ holds (c :: run) = true := by
      rw [← List.cons_append, beginsRun_append hrun hrest]
      exact and_iff_right (List.cons_ne_nil c run)
    have hinside : countPlaces (run ++ rest) (fun passed behind => BeginsRun holds (c :: passed) behind) =
        countPlaces rest fun passed behind => BeginsRun holds (c :: run ++ passed) behind :=
      countPlaces_inside hothers hc List.getLast?_singleton
    rw [List.cons_append, countPlaces_cons, hinside, List.isEmpty_cons, if_neg Bool.false_ne_true,
      List.countP_singleton, Nat.add_comm]
    congr 1
    simp only [hfirst]

/-- The runs of a text are counted at the places where they begin. -/
theorem countPlaces_beginsRun (text : List Char) :
    countPlaces text (BeginsRun holds) = (runs text).countP holds := by
  induction text using induction_runs with
  | last run hrun =>
    have hcount : countPlaces (run ++ []) (BeginsRun holds) = _ :=
      countPlaces_append_of_stops hrun stops_nil
    rwa [List.append_nil, countPlaces_nil, Nat.add_zero] at hcount
  | behind run c rest hrun hc ih =>
    have hbehind : (fun passed behind => BeginsRun holds (run ++ c :: passed) behind) =
        BeginsRun holds :=
      funext₂ fun passed behind => propext (beginsRun_behind hc run)
    rw [countPlaces_append_of_stops hrun (stops_cons.mpr hc), countPlaces_cons,
      if_neg (not_beginsRun_cons hc), Nat.add_zero, hbehind, ih, runs_append_cons hc,
      List.countP_append]

/-! ## Tokens and places -/

theorem count_tokens (name text : List Char) :
    (tokens text).count name = countPlaces text (TokenAt name) := by
  have hplaces : countPlaces text (TokenAt name) =
      countPlaces text (BeginsRun fun run => token? run == some name) := by
    refine countPlaces_congr fun front rest => ?_
    simp only [TokenAt, BeginsRun, beq_iff_eq]
  rw [hplaces, countPlaces_beginsRun, tokens_eq_filterMap_runs, List.count_filterMap]

theorem count_runs (run text : List Char) : (runs text).count run = countPlaces text (RunAt run) := by
  have hplaces : countPlaces text (RunAt run) = countPlaces text (BeginsRun (· == run)) := by
    refine countPlaces_congr fun front rest => ?_
    simp only [BeginsRun, beq_iff_eq, exists_eq_right]
  rw [hplaces, countPlaces_beginsRun]
  rfl

/-- The counts of a text hold each token once, with the number of the places at which a longest run
of name characters with this token begins. -/
theorem mem_counts_iff_tokenAt (text : List Char) :
    ((counts text).map Prod.fst).Nodup ∧ ∀ name n, (name, n) ∈ counts text ↔
      0 < n ∧ n = countPlaces text (TokenAt name) := by
  have hkeys : (counts text).map Prod.fst = (tokens text).eraseDups := by
    rw [counts, List.map_map]
    exact List.map_id _
  constructor
  · rw [hkeys]
    exact Reader.nodup_eraseDups_scan text
  · intro name n
    rw [← count_tokens, counts, List.mem_map]
    constructor
    · rintro ⟨token, htoken, hpair⟩
      obtain ⟨rfl, rfl⟩ := Prod.mk.inj hpair
      exact ⟨List.count_pos_iff.mpr (List.mem_eraseDups.mp htoken), rfl⟩
    · rintro ⟨hpos, rfl⟩
      exact ⟨name, List.mem_eraseDups.mpr (List.count_pos_iff.mp hpos), rfl⟩

/-- A run that begins with a digit holds a token from its first dollar sign on. -/
example : token? "1a$b$$".toList = some "$b".toList := by decide

end SourceMetrics.Names
