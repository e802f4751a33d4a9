import YdbSnippets.Commits.FileLists
import YdbSnippets.Commits.Processes
import YdbSnippets.Python.Numbers

/-!
# The commits of one log

`list_commits_on_previous_not_ancestor_of_next` asks one `git log` for all
commits and regroups the fields it prints by threes.
-/

namespace YdbSnippets
namespace Commits

open Python Text

section Reading

variable (py : Interpreter)

/-- The character that ends a field. -/
def nul : Char := Char.ofNat 0

/-- `s.split("\n", 1)[0]` -/
def firstLine (s : Str) : Str :=
  s.takeWhile fun c => c != '\n'

theorem newline_not_mem_firstLine (s : Str) :
    '\n' ∉ firstLine s := by
  intro hmem
  exact absurd (List.mem_takeWhile_imp hmem) (by simp)

/-- What follows the first line starts with a line feed. -/
theorem eq_firstLine_or (s : Str) :
    s = firstLine s ∨ ∃ rest, s = firstLine s ++ '\n' :: rest := by
  unfold firstLine
  induction s with
  | nil => exact Or.inl rfl
  | cons c tail ih =>
      by_cases hc : c = '\n'
      · subst hc
        exact Or.inr ⟨tail, rfl⟩
      · rw [List.takeWhile_cons_of_pos (by simpa using hc)]
        rcases ih with ih | ⟨rest, ih⟩
        · exact Or.inl (congrArg (c :: ·) ih)
        · exact Or.inr ⟨rest, congrArg (c :: ·) ih⟩

/-- `int((cts or "0").strip() or 0)`, or 0 for its `ValueError`. -/
def commitTime (cts : Str) : Int :=
  let text := strip (if cts = [] then ['0'] else cts)
  if text = [] then 0 else (parseInt py text).getD 0

/-- One turn of the loop: no commit if the id is too short. -/
def commitOfTokens (sha fullm cts : Str) : Option CommitInfo :=
  let sha := strip sha
  if sha = [] ∨ sha.length < 7 then none
  else some
    { sha := sha
      subject := firstLine fullm
      message := fullm
      commitTs := commitTime py cts }

/-- The loop over the tokens; one or two that are left over are dropped. -/
def commitsOfTokens : List Str → List CommitInfo
  | sha :: fullm :: cts :: rest =>
      (commitOfTokens py sha fullm cts).toList ++ commitsOfTokens rest
  | _ => []

/-- `list_commits_on_previous_not_ancestor_of_next`, from how `git log` ended. -/
def listCommitsOnPreviousNotAncestorOfNext (p : CompletedProcess) :
    Except Nat (List CommitInfo) := do
  let raw ← runGit p
  if strip raw = [] then return []
  let tokens := (rstrip nul (rstrip '\n' raw)).splitOn nul
  return commitsOfTokens py tokens

end Reading

section Printing

/-- A commit of the log: a full id, a message without NUL, and a time that is
not negative. -/
structure LogEntry where
  sha : Str
  isFullSha : isFullSha sha = true
  message : Str
  nul_not_mem : nul ∉ message
  time : Nat

/-- The fields of one commit, without the end of the last one. -/
def LogEntry.record (e : LogEntry) : Str :=
  e.sha ++ nul :: (e.message ++ nul :: Nat.toDigits 10 e.time)

/-- What `git log --format=%H%x00%B%x00%ct%x00` prints. -/
def printLog (entries : List LogEntry) : Str :=
  entries.flatMap fun e => e.record ++ [nul, '\n']

/-- A commit as it is stored: the bytes of the message need not be UTF-8. -/
structure StoredCommit where
  sha : Str
  isFullSha : isFullSha sha = true
  message : Bytes
  zero_not_mem : 0 ∉ message
  time : Nat

/-- What `git log --format=%H%x00%B%x00%ct%x00` prints of stored commits. -/
def printStored (commits : List StoredCommit) : Bytes :=
  commits.flatMap fun c =>
    encode (c.sha ++ [nul]) ++ c.message ++
      encode (nul :: Nat.toDigits 10 c.time ++ [nul, '\n'])

/-- The commit with its message in the lines of a text file. -/
def LogEntry.normalised (e : LogEntry) : LogEntry where
  sha := e.sha
  isFullSha := e.isFullSha
  message := universalNewlines e.message
  nul_not_mem h := (mem_universalNewlines h).elim (by decide) e.nul_not_mem
  time := e.time

/-- The commit as the parser reports it. -/
def LogEntry.info (e : LogEntry) : CommitInfo where
  sha := e.sha
  subject := firstLine e.message
  message := e.message
  commitTs := e.time

theorem LogEntry.sha_spec (e : LogEntry) :
    e.sha.length = 40 ∧ (∀ c ∈ e.sha, isHexDigit c = true) ∧
      ∀ c ∈ e.sha, isSpace c = false := by
  have h := e.isFullSha
  simp only [Commits.isFullSha, Bool.and_eq_true, decide_eq_true_eq, List.all_eq_true] at h
  exact ⟨h.1, h.2, fun c hc => isSpace_of_isHexDigit (h.2 c hc)⟩

/-- No carriage return and no NUL is among the digits of ids and times. -/
theorem ne_of_isHexDigit
    {c : Char} (h : isHexDigit c = true) :
    c ≠ nul ∧ c ≠ '\r' ∧ c ≠ '\n' := by
  refine ⟨?_, ?_, ?_⟩ <;>
    · rintro rfl
      exact absurd h (by decide)

theorem isHexDigit_of_mem_toDigits
    {n : Nat} {c : Char}
    (h : c ∈ Nat.toDigits 10 n) :
    isHexDigit c = true := by
  simp only [isHexDigit, isDigit_of_mem_toDigits_ten h, Bool.true_or]

/-- A text of digits comes through the translation unchanged. -/
theorem universalNewlines_of_hex
    {s : Str}
    (h : ∀ c ∈ s, isHexDigit c = true) :
    universalNewlines s = s :=
  universalNewlines_eq_self_iff.mpr fun hmem => (ne_of_isHexDigit (h _ hmem)).2.1 rfl

/-- What the process wrote is read as the log of the normalised commits. -/
theorem universalNewlines_printLog
    (entries : List LogEntry) :
    universalNewlines (printLog entries) = printLog (entries.map LogEntry.normalised) := by
  have hnul : nul ≠ '\n' ∧ nul ≠ '\r' := by decide
  induction entries with
  | nil => rfl
  | cons e rest ih =>
      have hsha : universalNewlines e.sha = e.sha := universalNewlines_of_hex e.sha_spec.2.1
      have htime : universalNewlines (Nat.toDigits 10 e.time) = Nat.toDigits 10 e.time :=
        universalNewlines_of_hex fun c => isHexDigit_of_mem_toDigits
      calc universalNewlines (printLog (e :: rest))
          = universalNewlines (e.sha ++ nul :: (e.message ++ nul :: (Nat.toDigits 10 e.time ++
              nul :: '\n' :: printLog rest))) := by
            simp [printLog, LogEntry.record]
        _ = e.sha ++ nul :: (universalNewlines e.message ++ nul :: (Nat.toDigits 10 e.time ++
              nul :: '\n' :: printLog (rest.map LogEntry.normalised))) := by
            rw [universalNewlines_append_cons _ _ hnul.1 hnul.2,
              universalNewlines_append_cons _ _ hnul.1 hnul.2,
              universalNewlines_append_cons _ _ hnul.1 hnul.2,
              universalNewlines_cons _ (by decide), hsha, htime, ih]
        _ = printLog ((e :: rest).map LogEntry.normalised) := by
            simp [printLog, LogEntry.record, LogEntry.normalised]

/-- The records of a log, without the end of the last one. -/
def records (entries : List LogEntry) : Str :=
  [nul, '\n'].intercalate (entries.map LogEntry.record)

theorem records_cons_cons
    (e next : LogEntry) (rest : List LogEntry) :
    records (e :: next :: rest) = e.record ++ nul :: '\n' :: records (next :: rest) := by
  unfold records
  rw [List.map_cons, List.map_cons, List.intercalate_cons_cons, List.append_assoc]
  rfl

theorem printLog_eq_records
    {entries : List LogEntry}
    (hne : entries ≠ []) :
    printLog entries = records entries ++ [nul, '\n'] := by
  induction entries with
  | nil => exact absurd rfl hne
  | cons e rest ih =>
      cases rest with
      | nil => simp [printLog, records]
      | cons next others =>
          have hrest := ih (List.cons_ne_nil next others)
          calc printLog (e :: next :: others)
              = e.record ++ nul :: '\n' :: printLog (next :: others) := by simp [printLog]
            _ = records (e :: next :: others) ++ [nul, '\n'] := by
                rw [hrest, records_cons_cons]
                simp

/-- The last character of the records is a digit. -/
theorem records_getLast
    {entries : List LogEntry}
    (hne : entries ≠ []) :
    ∃ front c, records entries = front ++ [c] ∧ isHexDigit c = true := by
  induction entries with
  | nil => exact absurd rfl hne
  | cons e rest ih =>
      cases rest with
      | nil =>
          obtain ⟨front, c, hdigits⟩ :
              ∃ front c, Nat.toDigits 10 e.time = front ++ [c] :=
            ⟨_, _, (List.dropLast_append_getLast Nat.toDigits_ne_nil).symm⟩
          refine ⟨e.sha ++ nul :: (e.message ++ nul :: front), c, ?_, ?_⟩
          · simp [records, LogEntry.record, hdigits]
          · exact isHexDigit_of_mem_toDigits (n := e.time) (by simp [hdigits])
      | cons next others =>
          obtain ⟨front, c, hfront, hc⟩ := ih (List.cons_ne_nil next others)
          refine ⟨e.record ++ nul :: '\n' :: front, c, ?_, hc⟩
          rw [records_cons_cons, hfront]
          simp

end Printing

section Regrouping

variable {py : Interpreter}

theorem commitTime_toDigits (n : Nat) :
    commitTime py (Nat.toDigits 10 n) = n := by
  have hstrip : strip (Nat.toDigits 10 n) = Nat.toDigits 10 n :=
    strip_of_no_spaces fun c hc => isSpace_of_isHexDigit (isHexDigit_of_mem_toDigits hc)
  simp only [commitTime, if_neg Nat.toDigits_ne_nil, hstrip, parseInt_toDigits,
    Option.getD_some]

/-- The line feed that ends a record is stripped from the next id. -/
theorem commitOfTokens_fields
    (py : Interpreter) (e : LogEntry) {lead : Str}
    (hlead : ∀ c ∈ lead, isSpace c = true) :
    commitOfTokens py (lead ++ e.sha) e.message (Nat.toDigits 10 e.time) = some e.info := by
  obtain ⟨hlength, _, hspace⟩ := e.sha_spec
  have hstrip : strip (lead ++ e.sha) = e.sha := by
    have hdrop : (lead ++ e.sha).dropWhile isSpace = e.sha.dropWhile isSpace := by
      rw [List.dropWhile_append_of_pos hlead]
    unfold strip
    rw [hdrop]
    exact strip_of_no_spaces hspace
  have hlong : ¬ (e.sha = [] ∨ e.sha.length < 7) := by
    rintro (hnil | hshort)
    · rw [hnil] at hlength
      cases hlength
    · omega
  simp only [commitOfTokens, hstrip, if_neg hlong, commitTime_toDigits]
  rfl

/-- The tokens are regrouped as they were printed, whatever the messages hold. -/
theorem commitsOfTokens_records
    (py : Interpreter) (lead : Str) {entries : List LogEntry}
    (hne : entries ≠ [])
    (hlead : ∀ c ∈ lead, isSpace c = true) :
    commitsOfTokens py ((lead ++ records entries).splitOn nul) = entries.map LogEntry.info := by
  induction entries generalizing lead with
  | nil => exact absurd rfl hne
  | cons e rest ih =>
      have hid : nul ∉ lead ++ e.sha := by
        intro hmem
        rcases List.mem_append.mp hmem with hmem | hmem
        · exact absurd (hlead _ hmem) (by decide)
        · exact (ne_of_isHexDigit (e.sha_spec.2.1 _ hmem)).1 rfl
      have htime : nul ∉ Nat.toDigits 10 e.time :=
        fun hmem => (ne_of_isHexDigit (isHexDigit_of_mem_toDigits hmem)).1 rfl
      have hcommit := commitOfTokens_fields py e hlead
      cases rest with
      | nil =>
          have hrecords : lead ++ records [e] =
              (lead ++ e.sha) ++ nul :: (e.message ++ nul :: Nat.toDigits 10 e.time) := by
            simp [records, LogEntry.record]
          rw [hrecords, List.splitOn_append_cons_self_of_not_mem hid,
            List.splitOn_append_cons_self_of_not_mem e.nul_not_mem,
            List.splitOn_eq_singleton htime, commitsOfTokens, hcommit]
          rfl
      | cons next others =>
          have hrecords : lead ++ records (e :: next :: others) =
              (lead ++ e.sha) ++ nul :: (e.message ++ nul :: (Nat.toDigits 10 e.time ++
                nul :: (['\n'] ++ records (next :: others)))) := by
            simp [records_cons_cons, LogEntry.record]
          have hrest := ih ['\n'] (List.cons_ne_nil next others)
            (List.forall_mem_singleton.mpr (by decide))
          rw [hrecords, List.splitOn_append_cons_self_of_not_mem hid,
            List.splitOn_append_cons_self_of_not_mem e.nul_not_mem,
            List.splitOn_append_cons_self_of_not_mem htime, commitsOfTokens, hcommit, hrest]
          rfl

/-- Trimming the output takes the end of the last record away, and no more. -/
theorem rstrip_printLog
    {entries : List LogEntry}
    (hne : entries ≠ []) :
    rstrip nul (rstrip '\n' (printLog entries)) = records entries := by
  obtain ⟨front, c, hfront, hc⟩ := records_getLast hne
  obtain ⟨hnul, _, _⟩ := ne_of_isHexDigit hc
  have hprinted : printLog entries = ((front ++ [c]) ++ [nul]) ++ ['\n'] := by
    rw [printLog_eq_records hne, hfront]
    simp
  rw [hprinted, rstrip_append_self, rstrip_append_of_ne _ (by decide), rstrip_append_self,
    rstrip_append_of_ne _ hnul, hfront]

/-- A log with commits is not blank. -/
theorem strip_printLog_ne_nil
    {entries : List LogEntry}
    (hne : entries ≠ []) :
    strip (printLog entries) ≠ [] := by
  intro hblank
  have hnul : nul ∈ printLog entries := by
    rw [printLog_eq_records hne]
    simp
  exact absurd (strip_eq_nil_iff.mp hblank nul hnul) (by decide)

/-- The parser returns the normalised commits. -/
theorem listCommits_printLog
    {p : CompletedProcess} {entries : List LogEntry}
    (h : p.Prints (printLog entries)) :
    listCommitsOnPreviousNotAncestorOfNext py p =
      .ok (entries.map fun e => e.normalised.info) := by
  unfold listCommitsOnPreviousNotAncestorOfNext
  rw [h.runGit_eq, universalNewlines_printLog]
  cases entries with
  | nil => rfl
  | cons e rest =>
      have hne : (e :: rest).map LogEntry.normalised ≠ [] := by simp
      have hread := commitsOfTokens_records py [] hne (by simp)
      rw [List.nil_append, List.map_map] at hread
      show (if strip _ = [] then _ else _) = _
      rw [if_neg (strip_printLog_ne_nil hne), rstrip_printLog hne, hread]
      rfl

theorem listCommits_of_not_utf8
    {p : CompletedProcess}
    (h : ¬ IsUtf8 p.stdout) :
    listCommitsOnPreviousNotAncestorOfNext py p = .error 1 := by
  unfold listCommitsOnPreviousNotAncestorOfNext
  rw [runGit_of_not_utf8 h]
  rfl

end Regrouping

section Stored

variable {py : Interpreter}

theorem encode_nul_cons (text : Str) :
    encode (nul :: text) = 0 :: encode text := by
  have hzero : encodeChar nul = [0] := by decide
  rw [encode_cons, hzero]
  rfl

theorem printStored_cons (c : StoredCommit) (commits : List StoredCommit) :
    printStored (c :: commits) = encode c.sha ++ 0 :: (c.message ++ 0 ::
      (encode (Nat.toDigits 10 c.time) ++ 0 :: ([] ++ 10 :: printStored commits))) := by
  have hnul : encode [nul] = [0] := by decide
  have hend : encode [nul, '\n'] = [0, 10] := by decide
  have hcons : printStored (c :: commits) = encode (c.sha ++ [nul]) ++ c.message ++
      encode (nul :: Nat.toDigits 10 c.time ++ [nul, '\n']) ++ printStored commits :=
    List.flatMap_cons
  rw [hcons, encode_append, hnul, List.cons_append, encode_nul_cons, encode_append, hend]
  simp only [List.append_assoc, List.cons_append, List.nil_append]

/-- A commit whose message is UTF-8. -/
structure StoredCommit.Reads (c : StoredCommit) (e : LogEntry) : Prop where
  sha : e.sha = c.sha
  message : encode e.message = c.message
  time : e.time = c.time

/-- Messages that are UTF-8 are texts. -/
theorem exists_reads
    {commits : List StoredCommit}
    (h : ∀ c ∈ commits, IsUtf8 c.message) :
    ∃ entries, List.Forall₂ StoredCommit.Reads commits entries := by
  induction commits with
  | nil => exact ⟨[], .nil⟩
  | cons c commits ih =>
      rw [List.forall_mem_cons] at h
      obtain ⟨⟨message, hmessage⟩, hrest⟩ := h
      obtain ⟨entries, hentries⟩ := ih hrest
      have hnul : nul ∉ message := by
        intro hmem
        refine c.zero_not_mem ?_
        rw [← hmessage]
        exact List.mem_flatMap.mpr ⟨nul, hmem, (mem_encodeChar_iff (by decide)).mpr rfl⟩
      exact ⟨⟨c.sha, c.isFullSha, message, hnul, c.time⟩ :: entries,
        .cons ⟨rfl, hmessage, rfl⟩ hentries⟩

theorem encode_printLog
    {commits : List StoredCommit} {entries : List LogEntry}
    (h : List.Forall₂ StoredCommit.Reads commits entries) :
    encode (printLog entries) = printStored commits := by
  induction h with
  | nil => rfl
  | cons hread _ ih =>
      have hend : encode [nul, '\n'] = [0, 10] := by decide
      rw [printStored_cons, ← ih, printLog, List.flatMap_cons, encode_append, encode_append, hend,
        LogEntry.record, encode_append, encode_nul_cons, encode_append, encode_nul_cons,
        hread.sha, hread.message, hread.time]
      simp only [List.append_assoc, List.cons_append, List.nil_append]
      rfl

/-- The output is UTF-8 only if every message is. -/
theorem isUtf8_message
    {commits : List StoredCommit}
    (h : IsUtf8 (printStored commits)) :
    ∀ c ∈ commits, IsUtf8 c.message := by
  have hzero : (0 : Fin 256) < 128 := by decide
  have hnewline : (10 : Fin 256) < 128 := by decide
  induction commits with
  | nil => exact fun _ hc => absurd hc List.not_mem_nil
  | cons c commits ih =>
      rw [printStored_cons, isUtf8_append_cons_iff hzero, isUtf8_append_cons_iff hzero,
        isUtf8_append_cons_iff hzero, isUtf8_append_cons_iff hnewline] at h
      exact List.forall_mem_cons.mpr ⟨h.2.1, ih h.2.2.2.2⟩

/-- No commit is lost or misaligned: if every message is UTF-8, every commit of the log is
reported at its place with its id and time.  Its message is reported in the lines of a text
file, with a line feed for every carriage return, alone or before a line feed; the subject
is what stands before the first line feed.  If a message is not UTF-8, the tool ends with
an exception. -/
theorem log_read_in_order
    (py : Interpreter)
    (commits : List StoredCommit)
    (stderr : Str) :
    ((∀ c ∈ commits, IsUtf8 c.message) →
      ∃ infos,
        listCommitsOnPreviousNotAncestorOfNext py ⟨0, printStored commits, encode stderr⟩ =
          .ok infos ∧
        List.Forall₂
          (fun (c : StoredCommit) (info : CommitInfo) =>
            ∃ message, encode message = c.message ∧
              info.sha = c.sha ∧ info.commitTs = c.time ∧
              info.message = universalNewlines message ∧
              (info.message = message ↔ '\r' ∉ message) ∧
              '\n' ∉ info.subject ∧
              (info.message = info.subject ∨
                ∃ rest, info.message = info.subject ++ '\n' :: rest))
          commits infos) ∧
    ((∃ c ∈ commits, ¬ IsUtf8 c.message) →
      listCommitsOnPreviousNotAncestorOfNext py ⟨0, printStored commits, encode stderr⟩ =
        .error 1) := by
  constructor
  · intro hutf8
    obtain ⟨entries, hentries⟩ := exists_reads hutf8
    have hprints : CompletedProcess.Prints ⟨0, printStored commits, encode stderr⟩
        (printLog entries) :=
      ⟨rfl, (encode_printLog hentries).symm, isUtf8_encode stderr⟩
    refine ⟨_, listCommits_printLog hprints, ?_⟩
    rw [List.forall₂_map_right_iff]
    refine hentries.imp fun c e hread => ⟨e.message, hread.message, hread.sha, ?_, rfl,
      universalNewlines_eq_self_iff, newline_not_mem_firstLine _, eq_firstLine_or _⟩
    exact congrArg Nat.cast hread.time
  · rintro ⟨c, hc, hnot⟩
    exact listCommits_of_not_utf8 fun h => hnot (isUtf8_message h c hc)

theorem zero_not_mem_returned :
    0 ∉ encode "a\rb".toList := by
  decide

theorem zero_not_mem_truncated :
    0 ∉ (encode ['é']).dropLast := by
  decide

/-- A commit whose message holds a carriage return inside a line. -/
def returned : StoredCommit where
  sha := List.replicate 40 'a'
  isFullSha := by decide
  message := encode "a\rb".toList
  zero_not_mem := zero_not_mem_returned
  time := 7

/-- A commit whose message ends inside a character. -/
def truncated : StoredCommit where
  sha := List.replicate 40 'a'
  isFullSha := by decide
  message := (encode ['é']).dropLast
  zero_not_mem := zero_not_mem_truncated
  time := 7

/-- The carriage return of the message is reported as a line feed, and the
subject ends there.  A message that is not UTF-8 ends the tool. -/
theorem carriage_return_becomes_newline :
    listCommitsOnPreviousNotAncestorOfNext asciiInterpreter ⟨0, printStored [returned], []⟩ =
        .ok [⟨List.replicate 40 'a', ['a'], "a\nb".toList, 7⟩] ∧
      "a\rb".toList ≠ "a\nb".toList ∧ firstLine "a\rb".toList ≠ ['a'] ∧
    listCommitsOnPreviousNotAncestorOfNext asciiInterpreter ⟨0, printStored [truncated], []⟩ =
        .error 1 := by
  refine ⟨?_, by decide, by decide, ?_⟩
  · let entry : LogEntry :=
      ⟨List.replicate 40 'a', returned.isFullSha, "a\rb".toList, by decide, 7⟩
    have hprints : CompletedProcess.Prints ⟨0, printStored [returned], []⟩ (printLog [entry]) :=
      ⟨rfl, (encode_printLog (.cons ⟨rfl, rfl, rfl⟩ .nil)).symm, isUtf8_encode []⟩
    rw [listCommits_printLog hprints]
    rfl
  · refine listCommits_of_not_utf8 fun h => ?_
    have hnot : ¬ IsUtf8 truncated.message := decodeUtf8_eq_none_iff.mp (by decide +kernel)
    exact hnot (isUtf8_message h truncated List.mem_cons_self)

end Stored

end Commits
end YdbSnippets
