import YdbSnippets.Python.Hex
import YdbSnippets.Python.Lines
import YdbSnippets.Text.Search
import Mathlib.Tactic.SplitIfs

/-!
# The report of missing commits

`find_missing_commits.py` prints one line for each commit;
`validate_find_missing_output.py` reads the commits back from the lines.
-/

namespace YdbSnippets
namespace Commits

open Python

section Times

/-- `_DAYS_BEFORE_MONTH` of Python's `datetime`. -/
def daysBeforeMonth : List Nat :=
  [0, 0, 31, 59, 90, 120, 151, 181, 212, 243, 273, 304, 334]

/-- `_DAYS_IN_MONTH` of Python's `datetime`. -/
def daysInMonth : List Nat :=
  [0, 31, 28, 31, 30, 31, 30, 31, 31, 30, 31, 30, 31]

/-- Year, month and day of the day with this number, from 0 for 0001-01-01. -/
def yearMonthDay (n : Nat) : Nat × Nat × Nat :=
  let n400 := n / 146097
  let n := n % 146097
  let n100 := n / 36524
  let n := n % 36524
  let n4 := n / 1461
  let n := n % 1461
  let n1 := n / 365
  let n := n % 365
  let year := n400 * 400 + 1 + n100 * 100 + n4 * 4 + n1
  if n1 = 4 ∨ n100 = 4 then (year - 1, 12, 31)
  else
    let leap := n1 = 3 ∧ (n4 ≠ 24 ∨ n100 = 3)
    let month := (n + 50) / 32
    let preceding := daysBeforeMonth.getD month 0 + (if 2 < month ∧ leap then 1 else 0)
    if n < preceding then
      let month := month - 1
      let preceding := preceding -
        (daysInMonth.getD month 0 + (if month = 2 ∧ leap then 1 else 0))
      (year, month, n - preceding + 1)
    else (year, month, n - preceding + 1)

/-- The last digit of a number. -/
def digit (n : Nat) : Char :=
  Char.ofNat (48 + n % 10)

def twoDigits (n : Nat) : Str :=
  [digit (n / 10), digit n]

/-- `%Y`: four digits from the year 1000 on. -/
def yearDigits (year : Nat) : Str :=
  if year < 1000 then Nat.toDigits 10 year
  else [digit (year / 1000), digit (year / 100), digit (year / 10), digit year]

/-- `datetime.fromtimestamp(ts, tz=utc).strftime("%Y-%m-%dT%H:%M:%SZ")`, or
`none` for the `ValueError` of a year outside 1 to 9999. -/
def formatTimestamp (ts : Int) : Option Str :=
  if ts < -62135596800 ∨ 253402300800 ≤ ts then none
  else
    let n := (ts + 62135596800).toNat
    let date := yearMonthDay (n / 86400)
    let s := n % 86400
    some (yearDigits date.1 ++ '-' :: twoDigits date.2.1 ++ '-' :: twoDigits date.2.2 ++
      'T' :: twoDigits (s / 3600) ++ ':' :: twoDigits (s / 60 % 60) ++
      ':' :: twoDigits (s % 60) ++ ['Z'])

example : formatTimestamp 951827696 = some "2000-02-29T12:34:56Z".toList := by
  decide +kernel

end Times

section Writing

/-- `CommitInfo` -/
structure CommitInfo where
  sha : Str
  subject : Str
  message : Str
  commitTs : Int
deriving DecidableEq, Repr

/-- The line `main` prints for a commit. -/
def printCommit (c : CommitInfo) : Option Str :=
  (formatTimestamp c.commitTs).map fun time =>
    time ++ '\t' :: c.sha ++ '\t' :: c.subject ++ ['\n']

/-- What `main` prints, or `none` if a time cannot be printed. -/
def printReport (commits : List CommitInfo) : Option Str :=
  (commits.mapM printCommit).map List.flatten

end Writing

section Reading

variable (py : Interpreter)

/-- `\d`: the decimal digits of all scripts. -/
def isDecimal (c : Char) : Bool :=
  c.isDigit || (py.decimal c).isSome

/-- `^\d{4}-\d{2}-\d{2}T` -/
def startsWithDate : Str → Bool
  | a :: b :: c :: d :: '-' :: e :: f :: '-' :: g :: h :: 'T' :: _ =>
      [a, b, c, d, e, f, g, h].all (isDecimal py)
  | _ => false

/-- `^[0-9a-fA-F]{7,40}$`, for a text without line feeds. -/
def isShaText (s : Str) : Bool :=
  decide (7 ≤ s.length ∧ s.length ≤ 40) && s.all isHexDigit

/-- `_sha_from_output_line` -/
def shaFromOutputLine (line : Str) : Str :=
  let parts := (line.splitOn '\t').map strip
  let cand :=
    match parts with
    | p0 :: p1 :: _ => if startsWithDate py p0 then p1 else p0
    | [p0] => p0
    | [] => []
  if isShaText cand then
    if cand.length = 40 then cand.map asciiLower else cand
  else []

/-- `could not parse commit SHA`: the number of the line and the line. -/
structure ParseError where
  number : Nat
  line : Str
deriving DecidableEq, Repr

/-- The loop of `parse_output_lines`. -/
def parseLinesFrom : Nat → List Str → Except ParseError (List Str)
  | _, [] => .ok []
  | i, line :: rest =>
      let line := strip line
      if line = [] then parseLinesFrom (i + 1) rest
      else
        let sha := shaFromOutputLine py line
        if sha = [] ∨ isShaText sha = false then .error ⟨i, line⟩
        else do
          let shas ← parseLinesFrom (i + 1) rest
          return sha :: shas

/-- `parse_output_lines` -/
def parseOutputLines (text : Str) : Except ParseError (List Str) :=
  parseLinesFrom py 1 (splitlines text)

end Reading

section Lines

variable {py : Interpreter}

theorem digit_spec (n : Nat) :
    (digit n).isDigit = true ∧ isSpace (digit n) = false := by
  have hall : ∀ d : Fin 10, (Char.ofNat (48 + d)).isDigit = true ∧
      isSpace (Char.ofNat (48 + d)) = false := by
    decide
  exact hall ⟨n % 10, Nat.mod_lt _ (by decide)⟩

/-- Times of the years 1970 to 9999 are printed as a date and a time without
blanks. -/
theorem formatTimestamp_spec
    {ts : Int} (hpast : 0 ≤ ts) (hfuture : ts < 253402300800) :
    ∃ time, formatTimestamp ts = some time ∧ startsWithDate py time = true ∧
      ∀ c ∈ time, isSpace c = false := by
  have hyear : 1000 ≤ (yearMonthDay ((ts + 62135596800).toNat / 86400)).1 := by
    have hdays : 719162 ≤ (ts + 62135596800).toNat / 86400 := by omega
    generalize (ts + 62135596800).toNat / 86400 = n at hdays
    simp only [yearMonthDay]
    split_ifs <;>
      · simp only
        omega
  have hrange : ¬ (ts < -62135596800 ∨ 253402300800 ≤ ts) := by omega
  unfold formatTimestamp
  rw [if_neg hrange]
  refine ⟨_, rfl, ?_, ?_⟩
  · simp only [yearDigits, if_neg (Nat.not_lt.mpr hyear), twoDigits, List.cons_append,
      List.nil_append, startsWithDate, isDecimal, List.all_cons, (digit_spec _).1,
      Bool.true_or, Bool.and_self, List.all_nil]
  · simp only [yearDigits, if_neg (Nat.not_lt.mpr hyear), twoDigits, List.cons_append,
      List.nil_append, List.forall_mem_cons, (digit_spec _).2, List.not_mem_nil,
      IsEmpty.forall_iff, implies_true, true_and, and_true]
    decide

/-- A commit id: 40 digits in lower case. -/
def IsSha (sha : Str) : Prop :=
  sha.length = 40 ∧ ∀ c ∈ sha, c.isDigit = true ∨ ('a' ≤ c ∧ c ≤ 'f')

theorem IsSha.spec
    {sha : Str} (h : IsSha sha) :
    isShaText sha = true ∧ sha.map asciiLower = sha ∧ sha ≠ [] ∧
      ∀ c ∈ sha, isSpace c = false := by
  obtain ⟨hlength, hchars⟩ := h
  have hvalue : ∀ c ∈ sha, isHexDigit c = true ∧ asciiLower c = c := by
    intro c hc
    rcases hchars c hc with hdigit | hletter
    · have hbounds := isDigit_iff_toNat.mp hdigit
      constructor
      · simp only [isHexDigit, hdigit, Bool.true_or]
      · exact if_neg (by omega)
    · have hbounds : 97 ≤ c.toNat ∧ c.toNat ≤ 102 := hletter
      constructor
      · simp only [isHexDigit, hletter, decide_true, Bool.and_self, Bool.or_true, Bool.true_or]
      · exact if_neg (by omega)
  refine ⟨?_, ?_, ?_, fun c hc => isSpace_of_isHexDigit (hvalue c hc).1⟩
  · simp only [isShaText, hlength, Bool.and_eq_true, decide_eq_true_eq, List.all_eq_true]
    exact ⟨by omega, fun c hc => (hvalue c hc).1⟩
  · exact (List.map_congr_left fun c hc => (hvalue c hc).2).trans (List.map_id _)
  · rintro rfl
    cases hlength

/-- Stripping leaves what starts and ends with characters that are no spaces. -/
theorem strip_append
    {front : Str} (rest : Str)
    (hhead : ∃ c ∈ front.head?, isSpace c = false)
    (hlast : ∀ c ∈ front.getLast?, isSpace c = false) :
    strip (front ++ rest) = front ++ rest.rdropWhile isSpace := by
  obtain ⟨c, hc, hspace⟩ := hhead
  have hdrop : (front ++ rest).dropWhile isSpace = front ++ rest := by
    cases front with
    | nil => cases hc
    | cons d tail =>
        obtain rfl : d = c := Option.some.inj hc
        simp [hspace]
  unfold strip
  rw [hdrop]
  clear hdrop
  induction rest using List.reverseRecOn with
  | nil =>
      rw [List.append_nil, List.rdropWhile_nil, List.append_nil]
      refine List.rdropWhile_eq_self_iff.mpr fun hne => ?_
      rw [hlast _ (List.getLast_mem_getLast? hne)]
      decide
  | append_singleton rest d ih =>
      rw [← List.append_assoc]
      cases hd : isSpace d with
      | true =>
          rw [List.rdropWhile_concat_pos _ _ _ hd, List.rdropWhile_concat_pos _ _ _ hd, ih]
      | false =>
          have hnot : ¬ isSpace d = true := by rw [hd]; decide
          rw [List.rdropWhile_concat_neg _ _ _ hnot, List.rdropWhile_concat_neg _ _ _ hnot,
            List.append_assoc]

theorem strip_of_no_spaces
    {s : Str}
    (hs : ∀ c ∈ s, isSpace c = false) :
    strip s = s :=
  strip_eq_self (fun c hc => hs c (List.mem_of_mem_head? hc))
    (fun c hc => hs c (List.mem_of_getLast? hc))

/-- The line of a commit is read back as its id. -/
theorem shaFromOutputLine_strip
    {time sha : Str} (w : Str)
    (htime : startsWithDate py time = true)
    (htimeSpace : ∀ c ∈ time, isSpace c = false)
    (hsha : IsSha sha) :
    shaFromOutputLine py (strip (time ++ '\t' :: (sha ++ '\t' :: w))) = sha ∧
      strip (time ++ '\t' :: (sha ++ '\t' :: w)) ≠ [] := by
  obtain ⟨htext, hlower, hne, hspace⟩ := hsha.spec
  have hnoTab : ∀ {s : Str}, (∀ c ∈ s, isSpace c = false) → '\t' ∉ s :=
    fun hs hmem => absurd (hs _ hmem) (by decide)
  have htimeNe : time ≠ [] := by
    rintro rfl
    cases htime
  have hstrip : strip (time ++ '\t' :: (sha ++ '\t' :: w)) =
      time ++ '\t' :: (sha ++ ('\t' :: w).rdropWhile isSpace) := by
    have heq : time ++ '\t' :: (sha ++ '\t' :: w) = (time ++ '\t' :: sha) ++ '\t' :: w := by
      simp
    rw [heq, strip_append]
    · simp
    · obtain ⟨c, tail, rfl⟩ := List.exists_cons_of_ne_nil htimeNe
      exact ⟨c, rfl, htimeSpace c List.mem_cons_self⟩
    · intro c hc
      rw [List.getLast?_append, List.getLast?_cons, List.getLast?_eq_some_getLast hne] at hc
      obtain rfl : sha.getLast hne = c := Option.some.inj hc
      exact hspace _ (List.getLast_mem hne)
  rw [hstrip]
  refine ⟨?_, fun heq => by cases time <;> cases heq⟩
  -- What is left of the last part is nothing, or a tab and some text.
  have hparts : ∃ parts, ((time ++ '\t' :: (sha ++ ('\t' :: w).rdropWhile isSpace)).splitOn
      '\t').map strip = time :: sha :: parts := by
    rw [List.splitOn_append_cons_self_of_not_mem (hnoTab htimeSpace)]
    rcases List.rdropWhile_prefix isSpace ('\t' :: w) with ⟨rest, hrest⟩
    cases hlast : ('\t' :: w).rdropWhile isSpace with
    | nil =>
        rw [List.append_nil, List.splitOn_eq_singleton (hnoTab hspace)]
        refine ⟨[], ?_⟩
        rw [List.map_cons, List.map_cons, strip_of_no_spaces htimeSpace,
          strip_of_no_spaces hspace, List.map_nil]
    | cons c tail =>
        rw [hlast, List.cons_append] at hrest
        obtain rfl : c = '\t' := (List.cons.inj hrest).1
        rw [List.splitOn_append_cons_self_of_not_mem (hnoTab hspace)]
        refine ⟨(tail.splitOn '\t').map strip, ?_⟩
        rw [List.map_cons, List.map_cons, strip_of_no_spaces htimeSpace,
          strip_of_no_spaces hspace]
  obtain ⟨parts, hparts⟩ := hparts
  simp only [shaFromOutputLine, hparts, htime, if_true, htext, hsha.1, hlower]

end Lines

section RoundTrip

variable {py : Interpreter}

/-- No text follows the first line break of the subject. -/
def IsOneLine (subject : Str) : Prop :=
  ∀ c ∈ subject.dropWhile (fun c => !isLineBreak c), isSpace c = true

/-- A commit as `main` gets it: a full id, a time of the years 1970 to 9999,
and the first line of a message. -/
structure CommitInfo.Printable (c : CommitInfo) : Prop where
  isSha : IsSha c.sha
  past : 0 ≤ c.commitTs
  future : c.commitTs < 253402300800
  noNewline : '\n' ∉ c.subject
  noReturn : '\r' ∉ c.subject

/-- The lines that follow the first one of a subject. -/
def overflow (subject : Str) : List Str :=
  match subject.dropWhile (fun c => !isLineBreak c) with
  | [] => []
  | _ :: rest => splitlines (rest ++ ['\n'])

theorem overflow_blank_iff
    {subject : Str} :
    (∀ line ∈ overflow subject, strip line = []) ↔ IsOneLine subject := by
  unfold overflow IsOneLine
  cases hdrop : subject.dropWhile (fun c => !isLineBreak c) with
  | nil => simp
  | cons b rest =>
      have hbreak : isLineBreak b = true := by
        have hnot := List.head?_dropWhile_not (fun c => !isLineBreak c) subject
        rw [hdrop] at hnot
        simpa using hnot
      have hnewline : isSpace '\n' = true := by decide
      rw [forall_splitlines_blank_iff]
      simp [isSpace_of_isLineBreak hbreak, hnewline, or_imp, forall_and]

/-- How the printed line of a commit is split. -/
theorem splitlines_subject
    {front subject : Str} (rest : Str)
    (hfront : ∀ c ∈ front, isLineBreak c = false)
    (hreturn : '\r' ∉ subject) :
    splitlines (front ++ (subject ++ '\n' :: rest)) =
      (front ++ subject.takeWhile (fun c => !isLineBreak c)) ::
        (overflow subject ++ splitlines rest) := by
  have hsplit : subject.takeWhile (fun c => !isLineBreak c) ++
      subject.dropWhile (fun c => !isLineBreak c) = subject := List.takeWhile_append_dropWhile
  have htitle : ∀ c ∈ front ++ subject.takeWhile (fun c => !isLineBreak c),
      isLineBreak c = false := by
    intro c hc
    rcases List.mem_append.mp hc with hc | hc
    · exact hfront c hc
    · simpa using List.mem_takeWhile_imp hc
  unfold overflow
  cases hdrop : subject.dropWhile (fun c => !isLineBreak c) with
  | nil =>
      rw [hdrop, List.append_nil] at hsplit
      rw [hsplit] at htitle ⊢
      rw [← List.append_assoc, splitlines_append_break rest htitle (by decide) (by decide),
        List.nil_append]
  | cons b tail =>
      have hbreak : isLineBreak b = true := by
        have hnot := List.head?_dropWhile_not (fun c => !isLineBreak c) subject
        rw [hdrop] at hnot
        simpa using hnot
      have hmem : ∀ c ∈ b :: tail, c ∈ subject := by
        intro c hc
        rw [← hdrop] at hc
        exact (List.dropWhile_suffix _).subset hc
      have hb : b ≠ '\r' := fun heq => hreturn (heq ▸ hmem b List.mem_cons_self)
      have htail : '\r' ∉ tail := fun hc => hreturn (hmem _ (List.mem_cons_of_mem _ hc))
      rw [hdrop] at hsplit
      calc splitlines (front ++ (subject ++ '\n' :: rest))
          = splitlines ((front ++ subject.takeWhile (fun c => !isLineBreak c)) ++
              b :: (tail ++ '\n' :: rest)) := by
            conv_lhs => rw [← hsplit]
            simp
        _ = _ := by
            rw [splitlines_append_break _ htitle hbreak hb,
              splitlines_append_newline rest htail]

/-- Blank lines are passed over. -/
theorem parseLinesFrom_blank_append
    {blank : List Str} (i : Nat) (lines : List Str)
    (hblank : ∀ line ∈ blank, strip line = []) :
    parseLinesFrom py i (blank ++ lines) = parseLinesFrom py (i + blank.length) lines := by
  induction blank generalizing i with
  | nil => rfl
  | cons line blank ih =>
      rw [List.cons_append, parseLinesFrom, if_pos (hblank line List.mem_cons_self),
        ih (i + 1) (fun l hl => hblank l (List.mem_cons_of_mem _ hl)), List.length_cons]
      congr 1
      omega

/-- An id for each line that is not blank. -/
theorem parseLinesFrom_length
    {i : Nat} {lines shas : List Str}
    (h : parseLinesFrom py i lines = .ok shas) :
    shas.length = lines.countP fun line => strip line ≠ [] := by
  induction lines generalizing i shas with
  | nil =>
      cases h
      rfl
  | cons line lines ih =>
      rw [parseLinesFrom] at h
      by_cases hblank : strip line = []
      · rw [if_pos hblank] at h
        rw [List.countP_cons_of_neg (by simp [hblank])]
        exact ih h
      · rw [if_neg hblank] at h
        rw [List.countP_cons_of_pos (by simp [hblank])]
        dsimp only at h
        split at h
        · cases h
        · cases hrest : parseLinesFrom py (i + 1) lines with
          | error e =>
              rw [hrest] at h
              cases h
          | ok rest =>
              rw [hrest] at h
              cases h
              rw [List.length_cons, ih hrest]

/-- A printed commit is a line that starts with its id, and what its subject
adds. -/
theorem printCommit_spec
    {c : CommitInfo} (hc : c.Printable) :
    ∃ block, printCommit c = some block ∧ ∀ rest, ∃ line,
      splitlines (block ++ rest) = line :: (overflow c.subject ++ splitlines rest) ∧
      strip line ≠ [] ∧ shaFromOutputLine py (strip line) = c.sha := by
  obtain ⟨time, htime, hdate, hspace⟩ := @formatTimestamp_spec py _ hc.past hc.future
  obtain ⟨htext, hlower, hne, hshaSpace⟩ := hc.isSha.spec
  refine ⟨_, by rw [printCommit, htime]; rfl, fun rest => ?_⟩
  have hfront : ∀ d ∈ time ++ '\t' :: (c.sha ++ ['\t']), isLineBreak d = false := by
    intro d hd
    simp only [List.mem_append, List.mem_cons, List.not_mem_nil, or_false] at hd
    rcases hd with hd | rfl | hd | rfl
    · exact isLineBreak_of_not_isSpace (hspace d hd)
    · decide
    · exact isLineBreak_of_not_isSpace (hshaSpace d hd)
    · decide
  have hlines := splitlines_subject rest hfront hc.noReturn
  have hread := shaFromOutputLine_strip (c.subject.takeWhile fun d => !isLineBreak d)
    hdate hspace hc.isSha
  refine ⟨_, ?_, hread.2, hread.1⟩
  simpa using hlines

/-- The report has a line with text for each commit, and is read back as their
ids if and only if no subject adds another one. -/
theorem printReport_spec
    {commits : List CommitInfo}
    (h : ∀ c ∈ commits, c.Printable) :
    ∃ text, printReport commits = some text ∧
      commits.length ≤ (splitlines text).countP (fun line => strip line ≠ []) ∧
      ∀ i, parseLinesFrom py i (splitlines text) = .ok (commits.map CommitInfo.sha) ↔
        ∀ c ∈ commits, IsOneLine c.subject := by
  induction commits with
  | nil => exact ⟨[], rfl, Nat.zero_le _, fun i => by simp [splitlines, parseLinesFrom]⟩
  | cons c commits ih =>
      obtain ⟨text, htext, hcount, hread⟩ := ih fun d hd => h d (List.mem_cons_of_mem _ hd)
      obtain ⟨block, hblock, hsplit⟩ := @printCommit_spec py _ (h c List.mem_cons_self)
      obtain ⟨line, hlines, hstrip, hsha⟩ := hsplit text
      obtain ⟨hisSha, -, hshaNe, -⟩ := (h c List.mem_cons_self).isSha.spec
      have hprint : printReport (c :: commits) = some (block ++ text) := by
        rw [printReport, Option.map_eq_some_iff] at htext
        obtain ⟨blocks, hblocks, rfl⟩ := htext
        simp [printReport, hblock, hblocks]
      have hone : ∀ i, parseLinesFrom py i (splitlines (block ++ text)) =
            .ok (c.sha :: commits.map CommitInfo.sha) ↔
          parseLinesFrom py (i + 1) (overflow c.subject ++ splitlines text) =
            .ok (commits.map CommitInfo.sha) := by
        intro i
        rw [hlines, parseLinesFrom, if_neg hstrip]
        simp only [hsha, hshaNe, hisSha, Bool.true_eq_false, or_false, if_false]
        cases parseLinesFrom py (i + 1) (overflow c.subject ++ splitlines text) with
        | error e =>
            constructor
            · intro heq
              cases heq
            · intro heq
              cases heq
        | ok shas =>
            constructor
            · intro heq
              cases heq
              rfl
            · intro heq
              cases heq
              rfl
      refine ⟨block ++ text, hprint, ?_, fun i => ?_⟩
      · rw [hlines, List.countP_cons_of_pos (by simp [hstrip]), List.countP_append,
          List.length_cons]
        omega
      · rw [List.map_cons, hone i, List.forall_mem_cons]
        constructor
        · intro hparse
          have hlength := parseLinesFrom_length hparse
          rw [List.length_map, List.countP_append] at hlength
          have hnone : (overflow c.subject).countP (fun line => strip line ≠ []) = 0 := by
            omega
          have hblank : ∀ line ∈ overflow c.subject, strip line = [] := by
            simpa [List.countP_eq_zero] using hnone
          rw [parseLinesFrom_blank_append _ _ hblank, hread] at hparse
          exact ⟨overflow_blank_iff.mp hblank, hparse⟩
        · rintro ⟨hfirst, hrest⟩
          rw [parseLinesFrom_blank_append _ _ (overflow_blank_iff.mpr hfirst), hread]
          exact hrest

/-- The validator reads back the ids of the report if and only if no subject
has text after a line break of `splitlines`. -/
theorem report_read_back_iff
    {commits : List CommitInfo}
    (h : ∀ c ∈ commits, c.Printable) :
    ∃ text, printReport commits = some text ∧
      (parseOutputLines py text = .ok (commits.map CommitInfo.sha) ↔
        ∀ c ∈ commits, IsOneLine c.subject) := by
  obtain ⟨text, htext, -, hread⟩ := @printReport_spec py _ h
  exact ⟨text, htext, hread 1⟩

/-- Two commits; the subject of the first ends with a line break of `splitlines`. -/
def twoCommits : List CommitInfo :=
  [⟨List.replicate 40 'a', "Fix\x0b".toList, [], 1700000000⟩,
   ⟨List.replicate 40 'b', "Add a test".toList, [], 1700000001⟩]

theorem report_read_back_two_lines :
    ∃ text, printReport twoCommits = some text ∧
      (parseOutputLines asciiInterpreter text =
          .ok [List.replicate 40 'a', List.replicate 40 'b'] ↔
        ∀ c ∈ twoCommits, IsOneLine c.subject) := by
  refine report_read_back_iff fun c hc => ?_
  rcases List.mem_pair.mp hc with rfl | rfl
  · exact ⟨by simp [IsSha], by decide, by decide, by decide, by decide⟩
  · exact ⟨by simp [IsSha], by decide, by decide, by decide, by decide⟩

/-- A line separator inside a subject makes a second line, which is no id. -/
theorem report_with_line_separator_rejected :
    ¬ ∀ (py : Interpreter) (commits : List CommitInfo),
      (∀ c ∈ commits, c.Printable) →
      ∃ text, printReport commits = some text ∧
        parseOutputLines py text = .ok (commits.map CommitInfo.sha) := by
  intro h
  have hprintable : ∀ c ∈ [CommitInfo.mk (List.replicate 40 'a') ['x', '\u2028', 'y'] []
      1700000000], c.Printable := by
    intro c hc
    obtain rfl := List.mem_singleton.mp hc
    exact ⟨by simp [IsSha], by decide, by decide, by decide, by decide⟩
  obtain ⟨text, htext, hread⟩ := h asciiInterpreter _ hprintable
  have hprinted : printReport [CommitInfo.mk (List.replicate 40 'a') ['x', '\u2028', 'y'] []
      1700000000] = some ("2023-11-14T22:13:20Z\t".toList ++ List.replicate 40 'a' ++
        ['\t', 'x', '\u2028', 'y', '\n']) := by
    decide +kernel
  have hrejected : parseOutputLines asciiInterpreter ("2023-11-14T22:13:20Z\t".toList ++
      List.replicate 40 'a' ++ ['\t', 'x', '\u2028', 'y', '\n']) =
      .error ⟨2, ['y']⟩ := by
    decide +kernel
  rw [hprinted] at htext
  cases htext
  rw [hrejected] at hread
  cases hread

end RoundTrip

end Commits
end YdbSnippets
