import YdbSnippets.Backup.Checksums

/-!
# The phases of a correction

A table goes through five phases, one for each object written.  Whatever
interrupts a run, the objects of the table are those of one phase, and no run
goes back to an earlier one.
-/

namespace YdbSnippets
namespace Backup

open Python Effects StoreProgram

section Objects

/-- The objects of one exported table. -/
@[ext] structure Objects where
  scheme : Option ByteArray
  schemeBackup : Option ByteArray
  checksum : Option ByteArray
  checksumBackup : Option ByteArray

/-- The objects next to the scheme with this key. -/
def objectsOf (key : Str) (s : Bucket) : Objects where
  scheme := s.lookup key
  schemeBackup := s.lookup (siblingKey key schemeBackupName)
  checksum := s.lookup (siblingKey key checksumName)
  checksumBackup := s.lookup (siblingKey key checksumBackupName)

variable {key : Str} {s : Bucket} {body : ByteArray}

theorem objectsOf_insert_scheme
    (hkey : isSchemePb key = true) :
    objectsOf key (s.insert key body) = { objectsOf key s with scheme := some body } := by
  have hne : ∀ name, name ≠ schemeName → siblingKey key name ≠ key := by
    intro name hname heq
    rw [siblingKey_eq, eq_directory_append hkey, directory_append key (by decide)] at heq
    exact hname (List.append_cancel_left heq)
  ext1
  · exact Finmap.lookup_insert s
  all_goals exact Finmap.lookup_insert_of_ne s (hne _ (by decide))

theorem objectsOf_insert_sibling
    (hkey : isSchemePb key = true)
    {name : Str} (hname : name ≠ schemeName) :
    objectsOf key (s.insert (siblingKey key name) body) =
      { scheme := (objectsOf key s).scheme
        schemeBackup := if name = schemeBackupName then some body
          else (objectsOf key s).schemeBackup
        checksum := if name = checksumName then some body else (objectsOf key s).checksum
        checksumBackup := if name = checksumBackupName then some body
          else (objectsOf key s).checksumBackup } := by
  have hlookup : ∀ other, (s.insert (siblingKey key name) body).lookup (siblingKey key other) =
      if name = other then some body else s.lookup (siblingKey key other) := by
    intro other
    by_cases heq : name = other
    · subst heq
      rw [if_pos rfl]
      exact Finmap.lookup_insert s
    · rw [if_neg heq]
      refine Finmap.lookup_insert_of_ne s ?_
      rw [siblingKey_eq, siblingKey_eq]
      exact fun h => heq (List.append_cancel_left h).symm
  have hscheme : siblingKey key schemeName = key := by
    rw [siblingKey_eq, ← eq_directory_append hkey]
  ext1
  · have h := hlookup schemeName
    rw [hscheme, if_neg hname] at h
    exact h
  all_goals exact hlookup _

theorem objectsOf_insert_schemeBackup
    (hkey : isSchemePb key = true) :
    objectsOf key (s.insert (siblingKey key schemeBackupName) body) =
      { objectsOf key s with schemeBackup := some body } := by
  have hne : schemeBackupName ≠ schemeName := by decide
  rw [objectsOf_insert_sibling hkey hne]
  rfl

theorem objectsOf_insert_checksum
    (hkey : isSchemePb key = true) :
    objectsOf key (s.insert (siblingKey key checksumName) body) =
      { objectsOf key s with checksum := some body } := by
  have hne : checksumName ≠ schemeName := by decide
  rw [objectsOf_insert_sibling hkey hne]
  rfl

theorem objectsOf_insert_checksumBackup
    (hkey : isSchemePb key = true) :
    objectsOf key (s.insert (siblingKey key checksumBackupName) body) =
      { objectsOf key s with checksumBackup := some body } := by
  have hne : checksumBackupName ≠ schemeName := by decide
  rw [objectsOf_insert_sibling hkey hne]
  rfl

end Objects

section Phases

/-- A table that was exported as a document table, and what is known of it. -/
structure DocumentTable (sha256 : ByteArray → Vector UInt8 32) where
  key : Str
  isScheme : isSchemePb key = true
  scheme : ByteArray
  text : Str
  decoded : decodeUtf8 scheme = some text
  newText : Str
  removed : List CodePoints
  rewrites : rewriteDocumentScheme text = .ok (some (newText, removed))
  rowScheme : requireRowScheme key newText = .ok ()
  checksum : Option ByteArray
  outdated : ∀ c, checksum = some c →
    parseChecksumFile c ≠ some (sha256Hex sha256 (encodeUtf8 newText))

/-- How far the correction of a table has come. -/
inductive Phase
  | exported
  | schemeSaved
  | schemeWritten
  | checksumSaved
  | checksumWritten
deriving DecidableEq, Repr

/-- The place of a phase in the order of the writes. -/
def Phase.rank : Phase → Nat
  | .exported => 0
  | .schemeSaved => 1
  | .schemeWritten => 2
  | .checksumSaved => 3
  | .checksumWritten => 4

variable {sha256 : ByteArray → Vector UInt8 32}

namespace DocumentTable

variable (t : DocumentTable sha256)

/-- The corrected scheme. -/
def newScheme : ByteArray :=
  encodeUtf8 t.newText

theorem newScheme_ne :
    t.newScheme ≠ t.scheme := by
  intro heq
  refine ne_of_rewriteDocumentScheme t.rewrites ?_
  have hdecode := decodeUtf8_encodeUtf8 t.newText
  change decodeUtf8 t.newScheme = _ at hdecode
  rw [heq, t.decoded] at hdecode
  exact (Option.some.inj hdecode).symm

/-- The exported scheme is rewritten. -/
theorem processText_scheme (stats : Stats) :
    processText sha256 t.key t.scheme false stats (decodeUtf8 t.scheme) =
      replaceScheme sha256 t.key t.scheme t.newScheme false stats := by
  have hpass : ∀ p : StoreProgram Stats, ((Program.ofExcept
      (requireRowScheme t.key t.newText) : StoreProgram Unit).bind fun _ => p) = p := by
    rw [t.rowScheme]
    exact fun _ => rfl
  simp only [processText, t.decoded, t.rewrites]
  exact hpass _

/-- The corrected scheme is not. -/
theorem processText_newScheme (stats : Stats) :
    processText sha256 t.key t.newScheme false stats (decodeUtf8 t.newScheme) =
      repairChecksum sha256 t.key t.newScheme false stats := by
  simp only [processText, newScheme, decodeUtf8_encodeUtf8,
    rewriteDocumentScheme_rewritten t.rewrites]
  rfl

/-- The checksum file with the sum of the corrected scheme. -/
def newChecksum : Option ByteArray :=
  t.checksum.bind (fun old => (replaceChecksum old (sha256Hex sha256 t.newScheme)).toOption)

/-- A checksum file is given the new sum, and the sum is read back. -/
theorem exists_newChecksum
    {old : ByteArray} (hold : t.checksum = some old) :
    ∃ new, replaceChecksum old (sha256Hex sha256 t.newScheme) = .ok new ∧
      parseChecksumFile new = some (sha256Hex sha256 t.newScheme) ∧
      t.newChecksum = some new := by
  obtain ⟨new, hnew, hparse⟩ := replaceChecksum_spec sha256 old t.newScheme
  refine ⟨new, hnew, hparse, ?_⟩
  rw [newChecksum, hold, Option.bind_some, hnew]
  rfl

/-- The objects of the table in a phase.  A table without a checksum file has
the same objects from `schemeWritten` on. -/
def objects : Phase → Objects
  | .exported => ⟨some t.scheme, none, t.checksum, none⟩
  | .schemeSaved => ⟨some t.scheme, some t.scheme, t.checksum, none⟩
  | .schemeWritten => ⟨some t.newScheme, some t.scheme, t.checksum, none⟩
  | .checksumSaved => ⟨some t.newScheme, some t.scheme, t.checksum, t.checksum⟩
  | .checksumWritten => ⟨some t.newScheme, some t.scheme, t.newChecksum, t.checksum⟩

/-- Once the corrected scheme is written, the exported one is kept beside it. -/
theorem objects_of_schemeWritten
    {q : Phase} (hq : Phase.schemeWritten.rank ≤ q.rank) :
    (t.objects q).scheme = some t.newScheme ∧ (t.objects q).schemeBackup = some t.scheme := by
  cases q with
  | exported => exact absurd hq (by decide)
  | schemeSaved => exact absurd hq (by decide)
  | _ => exact ⟨rfl, rfl⟩

/-- The checksum file is the exported one until it is written. -/
theorem checksum_objects
    {q : Phase} (hq : q ≠ .checksumWritten) :
    (t.objects q).checksum = t.checksum := by
  cases q with
  | checksumWritten => exact absurd rfl hq
  | _ => rfl

/-- Without a checksum file the corrected scheme is the last object written. -/
theorem objects_of_no_checksum
    {q : Phase} (hq : Phase.schemeWritten.rank ≤ q.rank) (hnone : t.checksum = none) :
    t.objects q = t.objects .checksumWritten ∧ (t.objects q).checksum = none := by
  have hnew : t.newChecksum = none := by
    unfold newChecksum
    rw [hnone]
    rfl
  cases q with
  | exported => exact absurd hq (by decide)
  | schemeSaved => exact absurd hq (by decide)
  | schemeWritten => simp only [objects, hnone, hnew, and_self]
  | checksumSaved => simp only [objects, hnone, hnew, and_self]
  | checksumWritten => exact ⟨rfl, hnew⟩

/-- The table is in the phase `p` or in a later one. -/
def Since (p : Phase) (s : Bucket) : Prop :=
  ∃ q, p.rank ≤ q.rank ∧ objectsOf t.key s = t.objects q

/-- Unless something failed, the table is corrected. -/
def Corrected {α : Type} (mayFail : Prop) : Except Failure α → Bucket → Prop :=
  fun _ s => ¬ mayFail → objectsOf t.key s = t.objects .checksumWritten

end DocumentTable

end Phases

section Operations

variable {mayFail : Prop} {I : Bucket → Prop} {s : Bucket} {key backup : Str}

theorem safe_saveOriginal
    {Q : Except Failure Unit → Bucket → Prop} {body : ByteArray}
    (hbody : s.lookup key = some body)
    (hI : I s)
    (hfail : mayFail → ∀ e, Q (.error e) s)
    (hsaved : s.lookup backup ≠ none → Q (.ok ()) s)
    (hcopied : s.lookup backup = none →
      I (s.insert backup body) ∧ Q (.ok ()) (s.insert backup body)) :
    Safe (s3.flaky mayFail) I Q (saveOriginal key backup false) s := by
  refine Safe.perform_flaky hI hfail rfl ?_
  simp only [Bool.or_false]
  cases hbackup : s.lookup backup with
  | some kept =>
      exact ⟨hI, hsaved (by rw [hbackup]; simp)⟩
  | none =>
      obtain ⟨hI', hok⟩ := hcopied hbackup
      apply Safe.perform hI
      rintro r s' (hdone | ⟨hmay, ⟨e, rfl⟩, rfl⟩)
      · simp only [s3, hbody, Prod.mk.injEq] at hdone
        obtain ⟨rfl, rfl⟩ := hdone
        exact ⟨hI', hok⟩
      · exact ⟨hI, hfail hmay e⟩

theorem safe_getIfExists
    {Q : Except Failure (Option ByteArray) → Bucket → Prop}
    (hI : I s)
    (hfail : mayFail → ∀ e, Q (.error e) s)
    (hok : Q (.ok (s.lookup key)) s) :
    Safe (s3.flaky mayFail) I Q (getIfExists key) s := by
  refine Safe.perform_flaky hI hfail rfl ?_
  cases hbody : s.lookup key with
  | none =>
      rw [hbody] at hok
      exact ⟨hI, hok⟩
  | some body =>
      rw [hbody] at hok
      have hanswer : s3 s (.getObject key) = (.ok body, s) := by simp only [s3, hbody]
      exact Safe.perform_flaky hI hfail hanswer ⟨hI, hok⟩

theorem safe_putObject
    {Q : Except Failure Unit → Bucket → Prop} {body : ByteArray}
    (hI : I s)
    (hfail : mayFail → ∀ e, Q (.error e) s)
    (hput : I (s.insert key body) ∧ Q (.ok ()) (s.insert key body)) :
    Safe (s3.flaky mayFail) I Q (putObject key body) s := by
  apply Safe.perform hI
  rintro r s' (hdone | ⟨hmay, ⟨e, rfl⟩, rfl⟩)
  · cases hdone
    exact hput
  · exact ⟨hI, hfail hmay e⟩

end Operations

section Correction

variable {sha256 : ByteArray → Vector UInt8 32} (t : DocumentTable sha256)
variable {mayFail : Prop} {s : Bucket} {p q : Phase}

theorem since_of_objects
    (hrank : p.rank ≤ q.rank)
    (hs : objectsOf t.key s = t.objects q) :
    t.Since p s :=
  ⟨q, hrank, hs⟩

/-- Writing the checksum file finishes the correction. -/
theorem safe_writeChecksum
    {Q : Except Failure Unit → Bucket → Prop} {old : ByteArray}
    (hold : t.checksum = some old)
    (hq : q = .schemeWritten ∨ q = .checksumSaved)
    (hrank : p.rank ≤ q.rank)
    (hs : objectsOf t.key s = t.objects q)
    (hfail : mayFail → ∀ e s, Q (.error e) s)
    (hok : ∀ s, objectsOf t.key s = t.objects .checksumWritten → Q (.ok ()) s) :
    Safe (s3.flaky mayFail) (t.Since p) Q
      (writeChecksum sha256 (siblingKey t.key checksumName)
        (siblingKey t.key checksumBackupName) old t.newScheme false) s := by
  obtain ⟨new, hnew, -, hwritten⟩ := t.exists_newChecksum hold
  have hbody : s.lookup (siblingKey t.key checksumName) = some old := by
    have h := congrArg Objects.checksum hs
    rcases hq with rfl | rfl <;> exact h.trans hold
  have hsince : t.Since p s := since_of_objects t hrank hs
  have hrank' : p.rank ≤ Phase.checksumSaved.rank := by
    rcases hq with rfl | rfl
    · exact hrank.trans (by decide)
    · exact hrank
  -- once the old file is kept, the new one is put
  have hput : ∀ s, objectsOf t.key s = t.objects .checksumSaved →
      Safe (s3.flaky mayFail) (t.Since p) Q
        (putObject (siblingKey t.key checksumName) new) s := by
    intro s hs
    have hdone : objectsOf t.key (s.insert (siblingKey t.key checksumName) new) =
        t.objects .checksumWritten := by
      rw [objectsOf_insert_checksum t.isScheme, hs]
      simp only [DocumentTable.objects, hwritten]
    refine safe_putObject (since_of_objects t hrank' hs) (fun h e => hfail h e _) ⟨?_, hok _ hdone⟩
    exact since_of_objects t (hrank'.trans (by decide)) hdone
  rw [writeChecksum_eq _ _ _ hnew]
  simp only [Bool.false_eq_true, if_false]
  apply Safe.bind
  refine safe_saveOriginal hbody hsince (fun h e => hfail h e _) ?_ ?_
  · intro hkept
    rcases hq with rfl | rfl
    · exact absurd (congrArg Objects.checksumBackup hs) hkept
    · exact hput s hs
  · intro hnone
    have hsaved : objectsOf t.key
        (s.insert (siblingKey t.key checksumBackupName) old) = t.objects .checksumSaved := by
      rcases hq with rfl | rfl
      · rw [objectsOf_insert_checksumBackup t.isScheme, hs]
        simp only [DocumentTable.objects, hold]
      · have h := congrArg Objects.checksumBackup hs
        exact absurd (h.symm.trans hnone) (by simp [DocumentTable.objects, hold])
    exact ⟨since_of_objects t hrank' hsaved, hput _ hsaved⟩

/-- A run that finds the new scheme finishes what the one before it left. -/
theorem safe_repairChecksum
    (stats : Stats)
    (hq : Phase.schemeWritten.rank ≤ q.rank)
    (hrank : p.rank ≤ q.rank)
    (hs : objectsOf t.key s = t.objects q) :
    Safe (s3.flaky mayFail) (t.Since p) (t.Corrected mayFail)
      (repairChecksum sha256 t.key t.newScheme false stats) s := by
  have hsince : t.Since p s := since_of_objects t hrank hs
  have hfail : mayFail → ∀ (e : Failure) s, t.Corrected (α := Stats) mayFail (.error e) s :=
    fun hmay e s hnot => absurd hmay hnot
  have hbackup : s.lookup (siblingKey t.key schemeBackupName) = some t.scheme :=
    (congrArg Objects.schemeBackup hs).trans (t.objects_of_schemeWritten hq).2
  unfold repairChecksum
  refine Safe.perform_flaky hsince (fun h e => hfail h e s) rfl ?_
  simp only [hbackup, Option.isSome_some, if_true]
  apply Safe.bind
  refine safe_getIfExists hsince (fun h e => hfail h e _) ?_
  have hlookup := congrArg Objects.checksum hs
  change s.lookup (siblingKey t.key checksumName) = _ at hlookup
  rw [hlookup]
  cases hchecksum : t.checksum with
  | none =>
      obtain ⟨hlast, hnone⟩ := t.objects_of_no_checksum hq hchecksum
      rw [hnone]
      exact ⟨hsince, fun _ => hs.trans hlast⟩
  | some old =>
      by_cases hdone : q = .checksumWritten
      · subst hdone
        obtain ⟨new, -, hparse, hwritten⟩ := t.exists_newChecksum hchecksum
        simp only [DocumentTable.objects, hwritten, Safe.bindPost, repairCurrent, hparse, ne_eq,
          not_true, if_false]
        exact ⟨hsince, fun _ => hs⟩
      · rw [t.checksum_objects hdone, hchecksum]
        simp only [Safe.bindPost, repairCurrent]
        have houtdated : parseChecksumFile old ≠ some (sha256Hex sha256 t.newScheme) :=
          t.outdated old hchecksum
        rw [if_pos houtdated]
        have hnext : q = .schemeWritten ∨ q = .checksumSaved := by
          cases q with
          | exported => exact absurd hq (by decide)
          | schemeSaved => exact absurd hq (by decide)
          | schemeWritten => exact Or.inl rfl
          | checksumSaved => exact Or.inr rfl
          | checksumWritten => exact absurd rfl hdone
        have hp : p.rank ≤ Phase.checksumWritten.rank := by
          cases p <;> decide
        apply Safe.bind
        exact safe_writeChecksum t hchecksum hnext hrank hs hfail fun s' hs' =>
          ⟨since_of_objects t hp hs', fun _ => hs'⟩

/-- A run that finds the exported scheme goes through all phases left. -/
theorem safe_replaceScheme
    (stats : Stats)
    (hq : q = .exported ∨ q = .schemeSaved)
    (hrank : p.rank ≤ q.rank)
    (hs : objectsOf t.key s = t.objects q) :
    Safe (s3.flaky mayFail) (t.Since p) (t.Corrected mayFail)
      (replaceScheme sha256 t.key t.scheme t.newScheme false stats) s := by
  have hsince : t.Since p s := since_of_objects t hrank hs
  have hfail : mayFail → ∀ (e : Failure) s, t.Corrected (α := Stats) mayFail (.error e) s :=
    fun hmay e s hnot => absurd hmay hnot
  have hrank' : p.rank ≤ Phase.schemeSaved.rank := by
    rcases hq with rfl | rfl
    · exact hrank.trans (by decide)
    · exact hrank
  have hscheme : s.lookup t.key = some t.scheme := by
    have h := congrArg Objects.scheme hs
    rcases hq with rfl | rfl <;> exact h
  -- what follows once the original is kept
  have hsaved : ∀ s, objectsOf t.key s = t.objects .schemeSaved →
      Safe (s3.flaky mayFail) (t.Since p) (t.Corrected mayFail)
        ((getIfExists (siblingKey t.key checksumName)).bind fun oldChecksum =>
          (putObject t.key t.newScheme).bind fun _ =>
            updateChecksum sha256 t.key t.newScheme false stats oldChecksum) s := by
    intro s hs
    have hsince : t.Since p s := since_of_objects t hrank' hs
    have hwritten : objectsOf t.key (s.insert t.key t.newScheme) =
        t.objects .schemeWritten := by
      rw [objectsOf_insert_scheme t.isScheme, hs]
      rfl
    have hsince' : t.Since p (s.insert t.key t.newScheme) :=
      since_of_objects t (hrank'.trans (by decide)) hwritten
    apply Safe.bind
    refine safe_getIfExists hsince (fun h e => hfail h e _) ?_
    apply Safe.bind
    refine safe_putObject hsince (fun h e => hfail h e _) ⟨hsince', ?_⟩
    have hlookup : s.lookup (siblingKey t.key checksumName) = t.checksum :=
      congrArg Objects.checksum hs
    rw [hlookup]
    cases hchecksum : t.checksum with
    | none =>
        refine ⟨hsince', fun _ => ?_⟩
        rw [hwritten]
        simp only [DocumentTable.objects, DocumentTable.newChecksum, hchecksum,
          Option.bind_none]
    | some old =>
        apply Safe.bind
        refine safe_writeChecksum t hchecksum (Or.inl rfl) (hrank'.trans (by decide)) hwritten
          hfail ?_
        intro s' hs'
        exact ⟨since_of_objects t (hrank'.trans (by decide)) hs', fun _ => hs'⟩
  rw [replaceScheme_of_ne sha256 _ _ _ t.newScheme_ne]
  simp only [Program.bind_def, Bool.false_eq_true, if_false]
  apply Safe.bind
  refine safe_saveOriginal hscheme hsince (fun h e => hfail h e _) ?_ ?_
  · intro hkept
    rcases hq with rfl | rfl
    · exact absurd (congrArg Objects.schemeBackup hs) hkept
    · exact hsaved s hs
  · intro hnone
    have hcopied : objectsOf t.key
        (s.insert (siblingKey t.key schemeBackupName) t.scheme) = t.objects .schemeSaved := by
      rw [objectsOf_insert_schemeBackup t.isScheme, hs]
      rcases hq with rfl | rfl <;> rfl
    exact ⟨since_of_objects t hrank' hcopied, hsaved _ hcopied⟩

/-- A run of `_process_scheme` on the table, from any phase. -/
theorem safe_processScheme
    (stats : Stats)
    (hrank : p.rank ≤ q.rank)
    (hs : objectsOf t.key s = t.objects q) :
    Safe (s3.flaky mayFail) (t.Since p) (t.Corrected mayFail)
      (processScheme sha256 t.key false stats) s := by
  have hsince : t.Since p s := since_of_objects t hrank hs
  have hfail : mayFail → ∀ (e : Failure) s, t.Corrected (α := Stats) mayFail (.error e) s :=
    fun hmay e s hnot => absurd hmay hnot
  have hbody : s.lookup t.key = (t.objects q).scheme := congrArg Objects.scheme hs
  -- reading the scheme decides the branch
  have hread : ∀ raw, s.lookup t.key = some raw →
      Safe (s3.flaky mayFail) (t.Since p) (t.Corrected mayFail)
        (processText sha256 t.key raw false stats (decodeUtf8 raw)) s →
      Safe (s3.flaky mayFail) (t.Since p) (t.Corrected mayFail)
        (processScheme sha256 t.key false stats) s := by
    intro raw hraw hrun
    have hanswer : s3 s (.getObject t.key) = (.ok raw, s) := by simp only [s3, hraw]
    exact Safe.perform_flaky hsince (fun h e => hfail h e s) hanswer hrun
  by_cases hq : Phase.schemeWritten.rank ≤ q.rank
  · have hnew : s.lookup t.key = some t.newScheme :=
      hbody.trans (t.objects_of_schemeWritten hq).1
    apply hread _ hnew
    rw [t.processText_newScheme]
    exact safe_repairChecksum t stats hq hrank hs
  · have hbefore : q = .exported ∨ q = .schemeSaved := by
      cases q with
      | exported => exact Or.inl rfl
      | schemeSaved => exact Or.inr rfl
      | _ => exact absurd (by decide) hq
    have hold : s.lookup t.key = some t.scheme := by
      rw [hbody]
      rcases hbefore with rfl | rfl <;> rfl
    apply hread _ hold
    rw [t.processText_scheme]
    exact safe_replaceScheme t stats hbefore hrank hs

end Correction

end Backup
end YdbSnippets
