import YdbSnippets.Python.Bytes
import YdbSnippets.Python.Text

/-!
# Finished processes

What `subprocess.run` returns, and the text that `text=True` makes of the bytes that
the process wrote.
-/

namespace YdbSnippets
namespace Commits

open Python

section Reading

/-- What `text=True` makes of the line ends of an output. -/
def universalNewlines : Str → Str
  | [] => []
  | '\r' :: '\n' :: rest => '\n' :: universalNewlines rest
  | '\r' :: rest => '\n' :: universalNewlines rest
  | c :: rest => c :: universalNewlines rest

/-- The text of a stream in an UTF-8 locale, or `none` for the `UnicodeDecodeError`. -/
def readStream (data : Bytes) : Option Str :=
  (decodeUtf8 data).map fun text => universalNewlines text.toList

/-- A finished process: `returncode` and the bytes it wrote. -/
structure CompletedProcess where
  returncode : Int
  stdout : Bytes
  stderr : Bytes
deriving DecidableEq, Repr

/-- Both streams are decoded before `subprocess.run` returns. -/
def CompletedProcess.texts (p : CompletedProcess) : Option (Str × Str) := do
  let out ← readStream p.stdout
  let err ← readStream p.stderr
  return (out, err)

/-- `run_git`; an error is the exit status, which is 1 both for the `SystemExit` and for
the traceback of the `UnicodeDecodeError`. -/
def runGit (p : CompletedProcess) : Except Nat Str :=
  match p.texts with
  | none => .error 1
  | some (out, _) => if p.returncode ≠ 0 then .error 1 else .ok out

/-- The process succeeded and wrote this text.  What it wrote to `stderr` can be decoded. -/
structure CompletedProcess.Prints (p : CompletedProcess) (out : Str) : Prop where
  returncode : p.returncode = 0
  stdout : p.stdout = encode out
  stderr : IsUtf8 p.stderr

/-- A process that succeeds. -/
def succeeds (out : Str) : CompletedProcess :=
  ⟨0, encode out, []⟩

theorem prints_succeeds (out : Str) :
    (succeeds out).Prints out :=
  ⟨rfl, rfl, isUtf8_encode []⟩

theorem readStream_encode (text : Str) :
    readStream (encode text) = some (universalNewlines text) := by
  rw [readStream, decodeUtf8_encode, Option.map_some, String.toList_ofList]

theorem readStream_eq_none_iff
    {data : Bytes} :
    readStream data = none ↔ ¬ IsUtf8 data := by
  rw [readStream, Option.map_eq_none_iff, decodeUtf8_eq_none_iff]

/-- What a process prints is read with its line ends translated. -/
theorem CompletedProcess.Prints.runGit_eq
    {p : CompletedProcess} {out : Str}
    (h : p.Prints out) :
    runGit p = .ok (universalNewlines out) := by
  obtain ⟨err, herr⟩ := h.stderr
  have htexts : p.texts = some (universalNewlines out, universalNewlines err) := by
    rw [texts, h.stdout, ← herr, readStream_encode, readStream_encode]
    rfl
  rw [runGit, htexts]
  exact if_neg fun hcode => hcode h.returncode

/-- Nothing is read of an output that is not UTF-8. -/
theorem runGit_of_not_utf8
    {p : CompletedProcess}
    (h : ¬ IsUtf8 p.stdout) :
    runGit p = .error 1 := by
  have htexts : p.texts = none := by
    rw [CompletedProcess.texts, readStream_eq_none_iff.mpr h]
    rfl
  rw [runGit, htexts]

theorem runGit_of_failed
    {p : CompletedProcess}
    (h : p.returncode ≠ 0) :
    runGit p = .error 1 := by
  unfold runGit
  split
  · rfl
  · exact if_pos h

end Reading

section NewlineTranslation

@[simp] theorem universalNewlines_cons
    {c : Char} (rest : Str)
    (hc : c ≠ '\r') :
    universalNewlines (c :: rest) = c :: universalNewlines rest := by
  rw [universalNewlines]
  · rintro tail rfl
    exact absurd rfl hc
  · rintro rfl
    exact absurd rfl hc

/-- Line ends are not translated across a character that belongs to none. -/
theorem universalNewlines_append_cons
    {c : Char} (s t : Str)
    (hnewline : c ≠ '\n') (hreturn : c ≠ '\r') :
    universalNewlines (s ++ c :: t) = universalNewlines s ++ c :: universalNewlines t := by
  fun_induction universalNewlines s with
  | case1 => exact universalNewlines_cons t hreturn
  | case2 rest ih =>
      rw [List.cons_append, List.cons_append, universalNewlines, ih, List.cons_append]
  | case3 rest hrest ih =>
      have hnot : ∀ tail, rest ++ c :: t ≠ '\n' :: tail := by
        intro tail heq
        cases rest with
        | nil => exact hnewline (List.cons.inj heq).1
        | cons d rest => exact hrest rest (congrArg (· :: rest) (List.cons.inj heq).1)
      rw [List.cons_append, universalNewlines, ih, List.cons_append]
      exact hnot
  | case4 d rest _ hd ih =>
      rw [List.cons_append, universalNewlines_cons _ hd, ih, List.cons_append]

/-- No carriage return is left. -/
theorem return_not_mem_universalNewlines
    (s : Str) :
    '\r' ∉ universalNewlines s := by
  fun_induction universalNewlines s with
  | case1 => exact List.not_mem_nil
  | case2 rest ih => simpa using ih
  | case3 rest _ ih => simpa using ih
  | case4 c rest _ hc ih => simpa using ⟨fun h => hc h.symm, ih⟩

/-- A text without carriage returns is left alone, and no other text is. -/
theorem universalNewlines_eq_self_iff
    {s : Str} :
    universalNewlines s = s ↔ '\r' ∉ s := by
  constructor
  · intro h
    rw [← h]
    exact return_not_mem_universalNewlines s
  · intro h
    induction s with
    | nil => rfl
    | cons c rest ih =>
        rw [List.mem_cons, not_or] at h
        rw [universalNewlines_cons rest (Ne.symm h.1), ih h.2]

/-- No other character than a line feed comes from the translation. -/
theorem mem_universalNewlines
    {s : Str} {c : Char}
    (h : c ∈ universalNewlines s) :
    c = '\n' ∨ c ∈ s := by
  fun_induction universalNewlines s with
  | case1 => cases h
  | case2 rest ih =>
      rcases List.mem_cons.mp h with rfl | h
      · exact Or.inl rfl
      · exact (ih h).imp_right fun h => List.mem_cons_of_mem _ (List.mem_cons_of_mem _ h)
  | case3 rest _ ih =>
      rcases List.mem_cons.mp h with rfl | h
      · exact Or.inl rfl
      · exact (ih h).imp_right (List.mem_cons_of_mem _)
  | case4 d rest _ _ ih =>
      rcases List.mem_cons.mp h with rfl | h
      · exact Or.inr List.mem_cons_self
      · exact (ih h).imp_right (List.mem_cons_of_mem _)

end NewlineTranslation

end Commits
end YdbSnippets
