import YdbSnippets.LegacyTables.Messages
import YdbSnippets.Text.Search
import Mathlib.Algebra.GroupWithZero.Nat

/-!
# The file of legacy tables

`find` writes a line with the path and the reason for every table;
`LoadTablePaths` of `internal/repair/repair.go` reads the paths back.
-/

namespace YdbSnippets
namespace LegacyTables

open Text

section Reading

/-- `unicode.IsSpace` -/
def isSpaceRune (c : Char) : Bool :=
  let n := c.toNat
  (9 ≤ n && n ≤ 13) || n == 0x20 || n == 0x85 || n == 0xa0 || n == 0x1680 ||
    (0x2000 ≤ n && n ≤ 0x200a) || n == 0x2028 || n == 0x2029 || n == 0x202f ||
    n == 0x205f || n == 0x3000

/-- `strings.TrimSpace` -/
def trimSpace (s : GoString) : GoString :=
  trim isSpaceRune s

/-- `len(s)`, in bytes. -/
def byteLength (s : GoString) : Nat :=
  (s.map Char.utf8Size).sum

/-- `bufio.MaxScanTokenSize` -/
def maxScanTokenSize : Nat := 64 * 1024

/-- A carriage return at the end of a line is dropped. -/
def dropCR (line : GoString) : GoString :=
  if line.getLast? = some '\r' then line.dropLast else line

/-- The lines a `bufio.Scanner` returns, and whether it stopped at a line that
does not fit into its buffer with a line feed. -/
def scanLines (content : GoString) : List GoString × Bool :=
  let lines := content.splitOn '\n'
  let lines := if lines.getLast? = some [] then lines.dropLast else lines
  let short := lines.takeWhile fun line => decide (byteLength line < maxScanTokenSize)
  (short.map dropCR, decide (short.length < lines.length))

/-- The errors of `LoadTablePaths`. -/
inductive LoadError
  | notAbsolute (lineno : Nat) (path : GoString)
  | tooLong
deriving DecidableEq, Repr

/-- The loop of `LoadTablePaths`; `paths` are the paths so far. -/
def loadFrom : Nat → List GoString → List GoString → Except LoadError (List GoString)
  | _, [], paths => .ok paths
  | lineno, line :: rest, paths =>
      let line := trimSpace line
      if line = [] ∨ line.head? = some '#' then loadFrom (lineno + 1) rest paths
      else
        let p := trimSpace (line.takeWhile fun c => c != '\t')
        if p.head? ≠ some '/' then .error (.notAbsolute lineno p)
        else if p ∈ paths then loadFrom (lineno + 1) rest paths
        else loadFrom (lineno + 1) rest (paths ++ [p])

/-- `LoadTablePaths`, from the content of the file. -/
def loadTablePaths (content : GoString) : Except LoadError (List GoString) := do
  let (lines, tooLong) := scanLines content
  let paths ← loadFrom 1 lines []
  if tooLong then .error .tooLong else return paths

end Reading

section RoundTrip

/-- The line of a legacy table, without its line feed. -/
def legacyLine (path reason : GoString) : GoString :=
  path ++ '\t' :: reason

/-- A reason as the classification gives it: it ends its line. -/
structure IsReason (reason : GoString) : Prop where
  ne_nil : reason ≠ []
  oneLine : '\n' ∉ reason
  last : ∀ c ∈ reason.getLast?, isSpaceRune c = false

/-- A path that is read as it is written. -/
structure IsPlainPath (path : GoString) : Prop where
  absolute : path.head? = some '/'
  noSpace : ∀ c ∈ path, isSpaceRune c = false

/-- The line of a table is read as its path. -/
theorem loadFrom_legacyLine
    {path reason : GoString} (lineno : Nat) (rest paths : List GoString)
    (hpath : IsPlainPath path) (hreason : IsReason reason)
    (hnew : path ∉ paths) :
    loadFrom lineno (dropCR (legacyLine path reason) :: rest) paths =
      loadFrom (lineno + 1) rest (paths ++ [path]) := by
  obtain ⟨tail, rfl⟩ : ∃ tail, path = '/' :: tail := by
    cases path with
    | nil => cases hpath.absolute
    | cons c tail =>
        obtain rfl : c = '/' := Option.some.inj hpath.absolute
        exact ⟨tail, rfl⟩
  have hlast : ∀ c ∈ (legacyLine ('/' :: tail) reason).getLast?, isSpaceRune c = false := by
    intro c hc
    refine hreason.last c ?_
    obtain ⟨init, last, hreasonEq⟩ : ∃ init last, reason = init ++ [last] :=
      ⟨_, _, (List.dropLast_append_getLast hreason.ne_nil).symm⟩
    have hline : legacyLine ('/' :: tail) reason = ('/' :: tail ++ '\t' :: init) ++ [last] := by
      simp [legacyLine, hreasonEq]
    rw [hline, List.getLast?_concat] at hc
    rw [hreasonEq, List.getLast?_concat]
    exact hc
  have hdrop : dropCR (legacyLine ('/' :: tail) reason) = legacyLine ('/' :: tail) reason := by
    refine if_neg fun hcr => ?_
    exact absurd (hlast '\r' hcr) (by decide)
  have htrim : trimSpace (legacyLine ('/' :: tail) reason) = legacyLine ('/' :: tail) reason := by
    refine trim_eq_self ?_ hlast
    rintro c hc
    obtain rfl : '/' = c := Option.some.inj hc
    decide
  have htab : (legacyLine ('/' :: tail) reason).takeWhile (fun c => c != '\t') =
      '/' :: tail := by
    rw [legacyLine, List.takeWhile_append_of_pos, List.takeWhile_cons_of_neg (by simp),
      List.append_nil]
    intro c hc
    rw [bne_iff_ne]
    rintro rfl
    exact absurd (hpath.noSpace _ hc) (by decide)
  have hself : trimSpace ('/' :: tail) = '/' :: tail :=
    trim_eq_self (fun c hc => hpath.noSpace c (List.mem_of_mem_head? hc))
      (fun c hc => hpath.noSpace c (List.mem_of_getLast? hc))
  rw [hdrop, loadFrom]
  simp only [htrim, htab, hself, hnew, if_false]
  rw [if_neg (by simp [legacyLine]), if_neg (by simp)]

theorem loadFrom_legacyLines
    {entries : List (GoString × GoString)} (lineno : Nat) (paths : List GoString)
    (hpaths : ∀ entry ∈ entries, IsPlainPath entry.1)
    (hreasons : ∀ entry ∈ entries, IsReason entry.2)
    (hnodup : (paths ++ entries.map Prod.fst).Nodup) :
    loadFrom lineno (entries.map fun entry => dropCR (legacyLine entry.1 entry.2)) paths =
      .ok (paths ++ entries.map Prod.fst) := by
  induction entries generalizing lineno paths with
  | nil => simp [loadFrom]
  | cons entry rest ih =>
      have hsplit : paths ++ (entry :: rest).map Prod.fst =
          (paths ++ [entry.1]) ++ rest.map Prod.fst := by
        simp
      have hnew : entry.1 ∉ paths := by
        intro hmem
        have hdisjoint := (List.nodup_append.mp hnodup).2.2
        exact hdisjoint entry.1 hmem entry.1 (by simp) rfl
      rw [List.map_cons, loadFrom_legacyLine lineno _ paths (hpaths entry List.mem_cons_self)
        (hreasons entry List.mem_cons_self) hnew]
      rw [hsplit] at hnodup ⊢
      exact ih (lineno + 1) (paths ++ [entry.1])
        (fun e he => hpaths e (List.mem_cons_of_mem _ he))
        (fun e he => hreasons e (List.mem_cons_of_mem _ he)) hnodup

/-- The line of an entry fits into the buffer of the scanner. -/
def fits (entry : GoString × GoString) : Bool :=
  decide (byteLength (legacyLine entry.1 entry.2) < maxScanTokenSize)

/-- The file with a line for each of these tables. -/
def tablesFile (entries : List (GoString × GoString)) : GoString :=
  (entries.map fun entry => legacyLine entry.1 entry.2).flatMap fun line => line ++ ['\n']

/-- The scanner returns the lines up to the first one that does not fit. -/
theorem scanLines_tablesFile
    {entries : List (GoString × GoString)}
    (hpaths : ∀ entry ∈ entries, IsPlainPath entry.1)
    (hreasons : ∀ entry ∈ entries, IsReason entry.2) :
    scanLines (tablesFile entries) =
      ((entries.takeWhile fits).map fun entry => dropCR (legacyLine entry.1 entry.2),
        decide ((entries.takeWhile fits).length < entries.length)) := by
  have hnewline : ∀ line ∈ entries.map fun entry => legacyLine entry.1 entry.2,
      '\n' ∉ line := by
    intro line hline hmem
    obtain ⟨entry, hentry, rfl⟩ := List.mem_map.mp hline
    simp only [legacyLine, List.mem_append, List.mem_cons] at hmem
    rcases hmem with hmem | hmem | hmem
    · exact absurd ((hpaths entry hentry).noSpace _ hmem) (by decide)
    · cases hmem
    · exact (hreasons entry hentry).oneLine hmem
  have hshort : (entries.map fun entry => legacyLine entry.1 entry.2).takeWhile
      (fun line => decide (byteLength line < maxScanTokenSize)) =
      (entries.takeWhile fits).map fun entry => legacyLine entry.1 entry.2 :=
    List.takeWhile_map
  unfold scanLines tablesFile
  rw [splitOn_flatMap_append hnewline]
  simp [hshort]

/-- The paths of the lines up to the first one that does not fit are loaded. -/
theorem loadFrom_tablesFile
    {entries : List (GoString × GoString)}
    (hpaths : ∀ entry ∈ entries, IsPlainPath entry.1)
    (hreasons : ∀ entry ∈ entries, IsReason entry.2)
    (hnodup : (entries.map Prod.fst).Nodup) :
    loadFrom 1 (scanLines (tablesFile entries)).1 [] =
      .ok ((entries.takeWhile fits).map Prod.fst) := by
  have hsub := List.takeWhile_sublist fits (l := entries)
  have hload := loadFrom_legacyLines 1 []
    (fun entry hentry => hpaths entry (hsub.subset hentry))
    (fun entry hentry => hreasons entry (hsub.subset hentry))
    (by simpa using (hsub.map Prod.fst).nodup hnodup)
  rw [scanLines_tablesFile hpaths hreasons, hload, List.nil_append]

/-- The written paths are read back in order, if every line fits into the buffer
of the scanner. -/
theorem loadTablePaths_tablesFile
    {entries : List (GoString × GoString)}
    (hpaths : ∀ entry ∈ entries, IsPlainPath entry.1)
    (hreasons : ∀ entry ∈ entries, IsReason entry.2)
    (hnodup : (entries.map Prod.fst).Nodup)
    (hfits : ∀ entry ∈ entries, fits entry = true) :
    loadTablePaths (tablesFile entries) = .ok (entries.map Prod.fst) := by
  have hload := loadFrom_tablesFile hpaths hreasons hnodup
  have hall : entries.takeWhile fits = entries := List.takeWhile_eq_self_iff.mpr hfits
  rw [scanLines_tablesFile hpaths hreasons, hall] at hload
  unfold loadTablePaths
  rw [scanLines_tablesFile hpaths hreasons, hall]
  simp only [hload, Nat.lt_irrefl, decide_false]
  rfl

example :
    loadTablePaths "# comment\n/Root/db/t1\tno family\n\n/Root/db/t1\n/Root/db/t3\n".toList =
      .ok ["/Root/db/t1".toList, "/Root/db/t3".toList] := by
  decide +kernel

/-- Nothing is read from a file with a line that does not fit. -/
theorem loadTablePaths_tooLong
    {entries : List (GoString × GoString)}
    (hpaths : ∀ entry ∈ entries, IsPlainPath entry.1)
    (hreasons : ∀ entry ∈ entries, IsReason entry.2)
    (hnodup : (entries.map Prod.fst).Nodup)
    (hlong : ∃ entry ∈ entries, fits entry = false) :
    loadTablePaths (tablesFile entries) = .error .tooLong := by
  have hload := loadFrom_tablesFile hpaths hreasons hnodup
  have hless : (entries.takeWhile fits).length < entries.length := by
    refine lt_of_le_of_ne (List.takeWhile_sublist fits).length_le fun heq => ?_
    have hall := (List.takeWhile_sublist fits).eq_of_length heq
    obtain ⟨entry, hentry, hfalse⟩ := hlong
    rw [List.takeWhile_eq_self_iff.mp hall entry hentry] at hfalse
    cases hfalse
  rw [scanLines_tablesFile hpaths hreasons] at hload
  unfold loadTablePaths
  rw [scanLines_tablesFile hpaths hreasons]
  simp only [hload, hless, decide_true]
  rfl

end RoundTrip

end LegacyTables
end YdbSnippets
