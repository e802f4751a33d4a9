import YdbSnippets.Backup.Phases

/-!
# Interrupted runs of the scheme correction

Runs that are cut anywhere, or in which operations fail, leave every table in
one of its phases, and one more run corrects it.
-/

namespace YdbSnippets
namespace Backup

open Python Effects StoreProgram

/-! ## Other tables -/

section Others

variable {sha256 : ByteArray → Vector UInt8 32}

/-- The operation writes nothing but objects in the directory of `key`. -/
def WritesNextTo (key : Str) : StoreOp → Prop
  | .putObject dest _ => ∃ name, '/' ∉ name ∧ dest = directory key ++ name
  | .copyObject _ dest => ∃ name, '/' ∉ name ∧ dest = directory key ++ name
  | _ => True

theorem writesNextTo_sibling
    (key name : Str)
    (hname : '/' ∉ name) :
    ∃ name', '/' ∉ name' ∧ siblingKey key name = directory key ++ name' :=
  ⟨name, hname, siblingKey_eq key name⟩

theorem uses_saveOriginal
    {key source backup : Str} {dryRun : Bool}
    (hbackup : ∃ name, '/' ∉ name ∧ backup = directory key ++ name) :
    (saveOriginal source backup dryRun).Uses (WritesNextTo key) := by
  refine Program.uses_bind (Program.uses_perform trivial) ?_
  intro saved
  split
  · trivial
  · exact Program.uses_perform hbackup

theorem uses_getIfExists (key dest : Str) :
    (getIfExists dest).Uses (WritesNextTo key) := by
  refine Program.uses_bind (Program.uses_perform trivial) ?_
  intro existed
  split
  · exact Program.uses_bind (Program.uses_perform trivial) (fun _ => trivial)
  · trivial

theorem uses_writeChecksum
    {key checksumKey backup : Str} (old body : ByteArray) (dryRun : Bool)
    (hchecksum : ∃ name, '/' ∉ name ∧ checksumKey = directory key ++ name)
    (hbackup : ∃ name, '/' ∉ name ∧ backup = directory key ++ name) :
    (writeChecksum sha256 checksumKey backup old body dryRun).Uses (WritesNextTo key) := by
  refine Program.uses_bind (Program.uses_ofExcept _) ?_
  intro new
  split
  · trivial
  · refine Program.uses_bind (uses_saveOriginal hbackup) ?_
    intro _
    split
    · trivial
    · exact Program.uses_perform hchecksum

theorem uses_repairCurrent
    (sha256 : ByteArray → Vector UInt8 32) (key : Str) (raw : ByteArray) (dryRun : Bool)
    (stats : Stats) (current : Option ByteArray) :
    (repairCurrent sha256 key raw dryRun stats current).Uses (WritesNextTo key) := by
  cases current with
  | none => trivial
  | some current =>
      rw [repairCurrent]
      split
      · exact Program.uses_bind
          (uses_writeChecksum current raw dryRun
            (writesNextTo_sibling key checksumName (by decide))
            (writesNextTo_sibling key checksumBackupName (by decide)))
          (fun _ => trivial)
      · trivial

theorem uses_updateChecksum
    (sha256 : ByteArray → Vector UInt8 32) (key : Str) (newRaw : ByteArray) (dryRun : Bool)
    (stats : Stats) (oldChecksum : Option ByteArray) :
    (updateChecksum sha256 key newRaw dryRun stats oldChecksum).Uses (WritesNextTo key) := by
  cases oldChecksum with
  | none => trivial
  | some old =>
      exact Program.uses_bind
        (uses_writeChecksum old newRaw dryRun
          (writesNextTo_sibling key checksumName (by decide))
          (writesNextTo_sibling key checksumBackupName (by decide)))
        (fun _ => trivial)

theorem uses_processScheme
    {key : Str} (hkey : isSchemePb key = true) (dryRun : Bool) (stats : Stats) :
    (processScheme sha256 key dryRun stats).Uses (WritesNextTo key) := by
  have hbackup := writesNextTo_sibling key schemeBackupName (by decide)
  have hscheme : ∃ name, '/' ∉ name ∧ key = directory key ++ name :=
    ⟨schemeName, by decide, eq_directory_append hkey⟩
  refine Program.uses_bind (Program.uses_perform trivial) ?_
  intro raw
  cases decodeUtf8 raw with
  | none => trivial
  | some text =>
      refine Program.uses_bind (Program.uses_ofExcept _) ?_
      rintro (_ | ⟨newText, removed⟩)
      · refine Program.uses_bind (Program.uses_perform trivial) ?_
        intro saved
        dsimp only
        split
        · exact Program.uses_bind (uses_getIfExists key _)
            (uses_repairCurrent sha256 key raw dryRun stats)
        · trivial
      · refine Program.uses_bind (Program.uses_ofExcept _) ?_
        intro _
        unfold replaceScheme
        split
        · trivial
        · refine Program.uses_bind (uses_saveOriginal hbackup) ?_
          intro _
          refine Program.uses_bind (uses_getIfExists key _) ?_
          intro oldChecksum
          have hrest := uses_updateChecksum sha256 key (encodeUtf8 newText) dryRun stats oldChecksum
          dsimp only
          split
          · exact hrest
          · exact Program.uses_bind (Program.uses_perform hscheme) fun _ => hrest

/-- A write next to another scheme leaves the objects of a table alone. -/
theorem objectsOf_insert_of_ne
    {key other name : Str} {s : Bucket} {body : ByteArray}
    (hkey : isSchemePb key = true) (hother : isSchemePb other = true)
    (hne : key ≠ other)
    (hname : '/' ∉ name) :
    objectsOf key (s.insert (directory other ++ name) body) = objectsOf key s := by
  have hlookup : ∀ name', '/' ∉ name' →
      (s.insert (directory other ++ name) body).lookup (directory key ++ name') =
        s.lookup (directory key ++ name') := by
    intro name' hname'
    exact Finmap.lookup_insert_of_ne s (ne_of_isSchemePb hkey hother hne hname' hname)
  have hscheme := hlookup schemeName (by decide)
  rw [← eq_directory_append hkey] at hscheme
  have hsibling : ∀ name', '/' ∉ name' →
      (s.insert (directory other ++ name) body).lookup (siblingKey key name') =
        s.lookup (siblingKey key name') := by
    intro name' hname'
    rw [siblingKey_eq]
    exact hlookup name' hname'
  ext1
  · exact hscheme
  · exact hsibling schemeBackupName (by decide)
  · exact hsibling checksumName (by decide)
  · exact hsibling checksumBackupName (by decide)

/-- Processing another table leaves the objects of this one alone. -/
theorem safe_processScheme_of_ne
    {key other : Str} (mayFail : Prop) {s : Bucket} {objects : Objects} (stats : Stats)
    (hkey : isSchemePb key = true) (hother : isSchemePb other = true)
    (hne : key ≠ other)
    (hs : objectsOf key s = objects) :
    Safe (s3.flaky mayFail) (fun s => objectsOf key s = objects) (fun _ _ => True)
      (processScheme sha256 other false stats) s := by
  refine Safe.of_uses ?_ (uses_processScheme hother false stats) hs
  rintro s op r s' hwrites hs (hdone | ⟨_, _, rfl⟩)
  · cases op with
    | listKeys pre =>
        cases hdone
        exact hs
    | getObject source =>
        have hsame : s = s' := by
          simp only [s3] at hdone
          split at hdone <;> exact (Prod.mk.inj hdone).2
        exact hsame ▸ hs
    | putObject dest body =>
        obtain ⟨name, hname, rfl⟩ := hwrites
        cases hdone
        rw [objectsOf_insert_of_ne hkey hother hne hname]
        exact hs
    | copyObject source dest =>
        obtain ⟨name, hname, rfl⟩ := hwrites
        simp only [s3] at hdone
        split at hdone
        · cases hdone
          rw [objectsOf_insert_of_ne hkey hother hne hname]
          exact hs
        · cases hdone
          exact hs
    | «exists» dest =>
        cases hdone
        exact hs
  · exact hs

end Others

/-! ## Whole runs -/

section Runs

variable {sha256 : ByteArray → Vector UInt8 32} (t : DocumentTable sha256)
variable {mayFail : Prop} {s : Bucket} {p q : Phase}

/-- The loop over the keys: the table is corrected when its key was among
them, or if it was corrected before. -/
theorem safe_processKeys
    (keys : List Str) (stats : Stats)
    (hkeys : ∀ key ∈ keys, isSchemePb key = true)
    (hrank : p.rank ≤ q.rank)
    (hs : objectsOf t.key s = t.objects q)
    (hlisted : ¬ mayFail → q = .checksumWritten ∨ t.key ∈ keys) :
    Safe (s3.flaky mayFail) (t.Since p) (t.Corrected mayFail)
      (processKeys sha256 false keys stats) s := by
  induction keys generalizing stats s q with
  | nil =>
      refine ⟨since_of_objects t hrank hs, ?_⟩
      intro hmay
      rcases hlisted hmay with rfl | hmem
      · exact hs
      · cases hmem
  | cons key rest ih =>
      have hrest : ∀ key ∈ rest, isSchemePb key = true :=
        fun other h => hkeys other (List.mem_cons_of_mem _ h)
      -- the rest of the loop runs from the state the first key leaves
      have hnext : ∀ s stats, t.Since p s →
          (¬ mayFail → objectsOf t.key s = t.objects .checksumWritten ∨ t.key ∈ rest) →
          Safe (s3.flaky mayFail) (t.Since p) (t.Corrected mayFail)
            (processKeys sha256 false rest stats) s := by
        rintro s stats ⟨q', hrank', hs'⟩ hdone
        by_cases hmay : mayFail
        · exact ih stats hrest hrank' hs' (fun h => absurd hmay h)
        · rcases hdone hmay with hwritten | hmem
          · exact ih (q := .checksumWritten) stats hrest (by cases p <;> decide) hwritten
              (fun _ => Or.inl rfl)
          · exact ih stats hrest hrank' hs' (fun _ => Or.inr hmem)
      apply Safe.bind
      apply Safe.tryCatch
      by_cases heq : t.key = key
      · subst heq
        refine (safe_processScheme t stats hrank hs).weaken ?_
        rintro (e | stats') s' hsince hcorrected
        · exact ⟨hsince, hnext _ _ hsince (fun h => Or.inl (hcorrected h))⟩
        · exact hnext _ _ hsince (fun h => Or.inl (hcorrected h))
      · have hother := @safe_processScheme_of_ne sha256 _ _ mayFail _ _ stats
          t.isScheme (hkeys key List.mem_cons_self) heq hs
        refine hother.mono (fun s' hs' => since_of_objects t hrank hs') ?_
        have hdone : ∀ s', objectsOf t.key s' = t.objects q → ¬ mayFail →
            objectsOf t.key s' = t.objects .checksumWritten ∨ t.key ∈ rest := by
          intro s' hs' hmay
          rcases hlisted hmay with rfl | hmem
          · exact Or.inl hs'
          · exact Or.inr ((List.mem_cons.mp hmem).resolve_left heq)
        rintro (e | stats') s' hs' -
        · have hsince := since_of_objects t hrank hs'
          exact ⟨hsince, hnext _ _ hsince (hdone s' hs')⟩
        · exact hnext _ _ (since_of_objects t hrank hs') (hdone s' hs')

/-- A run of `process_prefix` over a prefix that covers the table. -/
theorem safe_processPrefix
    (mayFail : Prop) (p : Phase) (value : Str)
    (hcovers : ¬ mayFail → normalizePrefix value <+: t.key)
    (hrank : p.rank ≤ q.rank)
    (hs : objectsOf t.key s = t.objects q) :
    Safe (s3.flaky mayFail) (t.Since p) (t.Corrected mayFail)
      (processPrefix sha256 value false) s := by
  have hsince : t.Since p s := since_of_objects t hrank hs
  refine Safe.perform_flaky hsince (fun hmay e hnot => absurd hmay hnot) rfl ?_
  refine safe_processKeys t _ _ ?_ hrank hs ?_
  · intro key hkey
    rw [(List.mergeSort_perm _ _).mem_iff, List.mem_filter] at hkey
    exact hkey.2
  · intro hmay
    right
    rw [(List.mergeSort_perm _ _).mem_iff, List.mem_filter, List.mem_filter, Finset.mem_sort]
    have hmem : t.key ∈ s.keys := by
      rw [Finmap.mem_keys, ← Finmap.lookup_isSome]
      have h : s.lookup t.key = (t.objects q).scheme := congrArg Objects.scheme hs
      rw [h]
      cases q <;> rfl
    exact ⟨⟨hmem, List.isPrefixOf_iff_prefix.mpr (hcovers hmay)⟩, t.isScheme⟩

/-- An uninterrupted run over the table corrects it. -/
theorem run_processPrefix
    (value : Str)
    (hcovers : normalizePrefix value <+: t.key)
    (hs : objectsOf t.key s = t.objects q) :
    objectsOf t.key ((processPrefix sha256 value false).run s3 s).2 =
      t.objects .checksumWritten := by
  have hsafe := safe_processPrefix t False .exported value
    (fun _ => hcovers) (Nat.zero_le _) hs
  have henv : ∀ s op, s3.flaky False s op (s3 s op).1 (s3 s op).2 := fun _ _ => Or.inl rfl
  exact hsafe.post (Program.run_completes henv (processPrefix sha256 value false) s) not_false

/-- No operation removes an object. -/
theorem isSome_lookup_of_flaky
    (mayFail : Prop) {key : Str} (s : Bucket) (op : storeSignature.Op)
    (r : Except Failure (storeSignature.Answer op)) (s' : Bucket)
    (henv : s3.flaky mayFail s op r s')
    (hs : (s.lookup key).isSome = true) :
    (s'.lookup key).isSome = true := by
  have hinsert : ∀ dest (body : ByteArray), ((s.insert dest body).lookup key).isSome = true := by
    intro dest body
    by_cases heq : key = dest
    · subst heq
      rw [Finmap.lookup_insert]
      rfl
    · rw [Finmap.lookup_insert_of_ne s heq]
      exact hs
  rcases henv with hdone | ⟨_, _, rfl⟩
  · cases op with
    | listKeys pre =>
        cases hdone
        exact hs
    | getObject source =>
        have hsame : s = s' := by
          simp only [s3] at hdone
          split at hdone <;> exact (Prod.mk.inj hdone).2
        exact hsame ▸ hs
    | putObject dest body =>
        cases hdone
        exact hinsert _ _
    | copyObject source dest =>
        simp only [s3] at hdone
        split at hdone
        · cases hdone
          exact hinsert _ _
        · cases hdone
          exact hs
    | «exists» dest =>
        cases hdone
        exact hs
  · exact hs

end Runs

/-! ## The correction of one table -/

section Interruptions

variable (sha256 : ByteArray → Vector UInt8 32)

/-- A run of the tool that writes. -/
def IsRun (p : StoreProgram Stats) : Prop :=
  ∃ value, p = processPrefix sha256 value false

/-- What holds of the table with this key where runs were interrupted in `s`,
with `p` still to be run, after they started in `s₀`. -/
structure Interrupted
    (key : Str) (scheme newScheme : ByteArray) (checksum : Option ByteArray)
    (s₀ s : Bucket) (p : StoreProgram Stats) : Prop where
  old_or_new :
    s.lookup key = some scheme ∨ s.lookup key = some newScheme
  backup_of_new :
    s.lookup key = some newScheme → s.lookup (siblingKey key schemeBackupName) = some scheme
  backups_kept : ∀ s' p', Restarts s3.faulty (IsRun sha256) (s, p) (s', p') →
    ∀ name ∈ [schemeBackupName, checksumBackupName], ∀ body,
      s.lookup (siblingKey key name) = some body →
        s'.lookup (siblingKey key name) = some body
  checksum_backup : ∀ body,
    s.lookup (siblingKey key checksumBackupName) = some body → checksum = some body
  /-- after one more run with no failure -/
  finished : ∀ value, normalizePrefix value <+: key →
    ∀ s', ((processPrefix sha256 value false).run s3 s).2 = s' →
      objectsOf key s' = objectsOf key ((processPrefix sha256 value false).run s3 s₀).2 ∧
      s'.lookup key = some newScheme ∧
      s'.lookup (siblingKey key schemeBackupName) = some scheme ∧
      s'.lookup (siblingKey key checksumBackupName) = checksum ∧
      (checksum = none → s'.lookup (siblingKey key checksumName) = none) ∧
      (∀ c, checksum = some c → ∃ new,
        s'.lookup (siblingKey key checksumName) = some new ∧
          parseChecksumFile new = some (sha256Hex sha256 newScheme))

variable {sha256}

/-- The objects of a backup are those the table was exported with. -/
theorem lookup_backup_of_since
    (t : DocumentTable sha256) {s : Bucket} {name : Str} {body : ByteArray}
    (hs : t.Since .exported s)
    (hname : name = schemeBackupName ∨ name = checksumBackupName)
    (hbody : s.lookup (siblingKey t.key name) = some body) :
    (name = schemeBackupName → body = t.scheme) ∧
      (name = checksumBackupName → t.checksum = some body) := by
  obtain ⟨q, _, hq⟩ := hs
  have hbackup := congrArg Objects.schemeBackup hq
  have hchecksum := congrArg Objects.checksumBackup hq
  simp only [objectsOf] at hbackup hchecksum
  have hne : schemeBackupName ≠ checksumBackupName := by decide
  rcases hname with rfl | rfl
  · refine ⟨fun _ => ?_, fun h => absurd h hne⟩
    rw [hbody] at hbackup
    cases q <;> simp_all [DocumentTable.objects]
  · refine ⟨fun h => absurd h.symm hne, fun _ => ?_⟩
    rw [hbody] at hchecksum
    cases q <;> simp_all [DocumentTable.objects]

end Interruptions

/-- Runs of `process_prefix` that are cut anywhere, or in which operations
fail, leave a table that one more run corrects. -/
theorem process_converges
    (sha256 : ByteArray → Vector UInt8 32)
    (key : Str) (scheme : ByteArray) (text newText : Str) (removed : List CodePoints)
    (checksum : Option ByteArray)
    (s₀ s : Bucket) (start p : StoreProgram Stats)
    (hkey : isSchemePb key = true)
    (hdecoded : decodeUtf8 scheme = some text)
    (hrewrites : rewriteDocumentScheme text = .ok (some (newText, removed)))
    (hrow : requireRowScheme key newText = .ok ())
    (hscheme : s₀.lookup key = some scheme)
    (hbackup : s₀.lookup (siblingKey key schemeBackupName) = none)
    (hchecksumBackup : s₀.lookup (siblingKey key checksumBackupName) = none)
    (hchecksum : s₀.lookup (siblingKey key checksumName) = checksum)
    (houtdated : ∀ c, checksum = some c →
      parseChecksumFile c ≠ some (sha256Hex sha256 (encodeUtf8 newText)))
    (hstart : IsRun sha256 start)
    (hreach : Restarts s3.faulty (IsRun sha256) (s₀, start) (s, p)) :
    Interrupted sha256 key scheme (encodeUtf8 newText) checksum s₀ s p := by
  let t : DocumentTable sha256 :=
    ⟨key, hkey, scheme, text, hdecoded, newText, removed, hrewrites, hrow, checksum, houtdated⟩
  have hs₀ : objectsOf t.key s₀ = t.objects .exported := by
    ext1
    · exact hscheme
    · exact hbackup
    · exact hchecksum
    · exact hchecksumBackup
  have hsafe : ∀ p, IsRun sha256 p → ∀ s, t.Since .exported s →
      Safe s3.faulty (t.Since .exported) (fun _ _ => True) p s := by
    rintro p ⟨value, rfl⟩ s ⟨q, hrank, hs⟩
    rw [← Handler.flaky_true]
    exact (safe_processPrefix t True .exported value (fun h => absurd trivial h)
      hrank hs).weaken (fun _ _ _ _ => trivial)
  have hstartSafe := hsafe start hstart s₀ (since_of_objects t (Nat.zero_le _) hs₀)
  have hnow := Restarts.safe hsafe hreach hstartSafe
  obtain ⟨q, hrank, hs⟩ := hnow.inv
  have hlookup : s.lookup key = (t.objects q).scheme := congrArg Objects.scheme hs
  have hlookupBackup : s.lookup (siblingKey key schemeBackupName) =
      (t.objects q).schemeBackup := congrArg Objects.schemeBackup hs
  refine ⟨?_, ?_, ?_, ?_, ?_⟩
  · rw [hlookup]
    cases q with
    | exported => exact Or.inl rfl
    | schemeSaved => exact Or.inl rfl
    | _ => exact Or.inr rfl
  · intro hnew
    rw [hlookup] at hnew
    rw [hlookupBackup]
    cases q with
    | exported => exact absurd (Option.some.inj hnew).symm t.newScheme_ne
    | _ => rfl
  · intro s' p' hlater name hname body hbody
    -- the object is still there, and it can only be the one kept first
    have hsince' := (Restarts.safe hsafe hlater hnow).inv
    have hsome := Restarts.stable (J := fun s => (s.lookup (siblingKey key name)).isSome = true)
      (fun s op r s' henv => isSome_lookup_of_flaky True s op r s'
        (by rw [Handler.flaky_true]; exact henv)) hlater (by simp [hbody])
    obtain ⟨body', hbody'⟩ := Option.isSome_iff_exists.mp hsome
    have hcases : name = schemeBackupName ∨ name = checksumBackupName := by
      simpa using hname
    have hold := lookup_backup_of_since t ⟨q, hrank, hs⟩ hcases hbody
    have hnew := lookup_backup_of_since t hsince' hcases hbody'
    rw [hbody']
    rcases hcases with rfl | rfl
    · rw [hold.1 rfl, hnew.1 rfl]
    · rw [← hold.2 rfl, ← hnew.2 rfl]
  · intro body hbody
    exact (lookup_backup_of_since t ⟨q, hrank, hs⟩ (Or.inr rfl) hbody).2 rfl
  · rintro value hcovers s' rfl
    have hdone := run_processPrefix t value hcovers hs
    have hdone₀ := run_processPrefix t value hcovers hs₀
    have hwritten : _ = t.newChecksum := congrArg Objects.checksum hdone
    refine ⟨hdone.trans hdone₀.symm, congrArg Objects.scheme hdone,
      congrArg Objects.schemeBackup hdone, congrArg Objects.checksumBackup hdone, ?_, ?_⟩
    · rintro rfl
      exact hwritten
    · rintro c rfl
      obtain ⟨new, -, hparse, hnew⟩ := t.exists_newChecksum rfl
      exact ⟨new, hwritten.trans hnew, hparse⟩

section OneTable

/-- A run comes to the copy of the scheme, and has written nothing before. -/
theorem reaches_copyObject
    {sha256 : ByteArray → Vector UInt8 32} (t : DocumentTable sha256) {s : Bucket} (value : Str)
    (hkeys : (((s.keys.sort (· ≤ ·)).filter fun key =>
      (normalizePrefix value).isPrefixOf key).filter isSchemePb) = [t.key])
    (hscheme : s.lookup t.key = some t.scheme)
    (hbackup : s.lookup (siblingKey t.key schemeBackupName) = none) :
    ∃ next, Reaches s3.faulty s (processPrefix sha256 value false) s
      (.call (S := storeSignature)
        (.copyObject t.key (siblingKey t.key schemeBackupName)) next) := by
  have hget : s3 s (.getObject t.key) = (.ok t.scheme, s) := by
    simp only [s3, hscheme]
  have hexists : s3 s (.exists (siblingKey t.key schemeBackupName)) = (.ok false, s) := by
    simp only [s3, hbackup, Option.isSome_none]
  apply Exists.intro
  refine .step (Or.inl (rfl : s3 s (.listKeys (normalizePrefix value)) = _)) ?_
  change Reaches _ _ (processKeys sha256 false ((((s.keys.sort (· ≤ ·)).filter
    fun key => (normalizePrefix value).isPrefixOf key).filter isSchemePb).mergeSort
      fun a b => decide (a ≤ b)) _) _ _
  rw [hkeys, List.mergeSort_singleton]
  refine .step (Or.inl hget) ?_
  change Reaches _ _ (((processText sha256 t.key t.scheme false _
    (decodeUtf8 t.scheme)).tryCatch _).bind (processKeys sha256 false [])) _ _
  rw [t.processText_scheme, replaceScheme_of_ne sha256 _ _ _ t.newScheme_ne]
  exact .step (Or.inl hexists) .here

/-- A document table with one column. -/
def documentText : Str :=
  "columns \x7b name: \"id\" \x7d\nprimary_key: \"id\"\n".toList ++
    "attributes \x7b\n  key: \"__document_api_version\"\n  value: \"1\"\n\x7d\n".toList

/-- The same table as a row table. -/
def rowText : Str :=
  "columns \x7b name: \"id\" \x7d\nprimary_key: \"id\"\n".toList

/-- A checksum file with another sum. -/
def oldChecksumText : Str :=
  List.replicate 64 '0' ++ "  scheme.pb\n".toList

/-- The hash of the row table. -/
def rowHash (_ : ByteArray) : Vector UInt8 32 :=
  ⟨#[102, 21, 90, 14, 168, 111, 108, 254, 96, 7, 37, 105, 226, 16, 33, 50, 164, 129,
     184, 146, 6, 89, 232, 15, 208, 23, 204, 137, 233, 212, 17, 97], rfl⟩

def tableKey : Str := "export/t/scheme.pb".toList

def exportedBucket : Bucket :=
  ((∅ : Bucket).insert tableKey (encodeUtf8 documentText)).insert
    (siblingKey tableKey checksumName) (encodeUtf8 oldChecksumText)

/-- The bucket once the original of the scheme is kept. -/
def savedBucket : Bucket :=
  exportedBucket.insert (siblingKey tableKey schemeBackupName) (encodeUtf8 documentText)

theorem lookup_exportedBucket_scheme :
    exportedBucket.lookup tableKey = some (encodeUtf8 documentText) := by
  have hne : tableKey ≠ siblingKey tableKey checksumName := by decide +kernel
  rw [exportedBucket, Finmap.lookup_insert_of_ne _ hne, Finmap.lookup_insert]

theorem lookup_exportedBucket_checksum :
    exportedBucket.lookup (siblingKey tableKey checksumName) =
      some (encodeUtf8 oldChecksumText) := by
  rw [exportedBucket, Finmap.lookup_insert]

theorem lookup_exportedBucket_backup :
    ∀ name ∈ [schemeBackupName, checksumBackupName],
      exportedBucket.lookup (siblingKey tableKey name) = none := by
  have hne : ∀ name ∈ [schemeBackupName, checksumBackupName],
      siblingKey tableKey name ≠ siblingKey tableKey checksumName ∧
        siblingKey tableKey name ≠ tableKey := by
    decide +kernel
  intro name hname
  obtain ⟨hchecksum, hscheme⟩ := hne name hname
  rw [exportedBucket, Finmap.lookup_insert_of_ne _ hchecksum,
    Finmap.lookup_insert_of_ne _ hscheme, Finmap.lookup_empty]

theorem outdated_oldChecksumText :
    ∀ c, some (encodeUtf8 oldChecksumText) = some c →
      parseChecksumFile c ≠ some (sha256Hex rowHash (encodeUtf8 rowText)) := by
  rintro _ ⟨⟩
  unfold parseChecksumFile
  rw [decodeUtf8_encodeUtf8]
  decide +kernel

theorem isSchemePb_tableKey :
    isSchemePb tableKey = true := by
  decide +kernel

theorem sort_exportedBucket :
    exportedBucket.keys.sort (· ≤ ·) = [tableKey, siblingKey tableKey checksumName] := by
  have hkeys : exportedBucket.keys = [tableKey, siblingKey tableKey checksumName].toFinset := by
    ext key
    rw [Finmap.mem_keys]
    simp only [exportedBucket, Finmap.mem_insert, Finmap.notMem_empty, List.mem_toFinset,
      List.mem_cons, List.not_mem_nil, or_false]
    exact or_comm
  rw [hkeys]
  exact (List.toFinset_sort (· ≤ ·) (by decide +kernel)).mpr (by decide +kernel)

theorem rewriteDocumentScheme_documentText :
    rewriteDocumentScheme documentText = .ok (some (rowText, [documentAttribute])) := by
  unfold documentText rowText
  rw [String.toList_ofList, String.toList_ofList]
  decide +kernel

theorem requireRowScheme_rowText :
    requireRowScheme tableKey rowText = .ok () := by
  unfold rowText
  rw [String.toList_ofList]
  decide +kernel

/-- The table in the exported bucket. -/
def exportedTable : DocumentTable rowHash where
  key := tableKey
  isScheme := isSchemePb_tableKey
  scheme := encodeUtf8 documentText
  text := documentText
  decoded := decodeUtf8_encodeUtf8 documentText
  newText := rowText
  removed := [documentAttribute]
  rewrites := rewriteDocumentScheme_documentText
  rowScheme := requireRowScheme_rowText
  checksum := some (encodeUtf8 oldChecksumText)
  outdated := outdated_oldChecksumText

theorem s3_copyObject :
    s3 exportedBucket (.copyObject tableKey (siblingKey tableKey schemeBackupName)) =
      (.ok (), savedBucket) := by
  simp only [s3, lookup_exportedBucket_scheme]
  rfl

/-- A run is cut after it has copied the scheme, and another one starts. -/
theorem process_converges_one_table :
    Restarts s3.faulty (IsRun rowHash)
        (exportedBucket, processPrefix rowHash "/export".toList false)
        (savedBucket, processPrefix rowHash "export/t".toList false) ∧
      Interrupted rowHash tableKey (encodeUtf8 documentText) (encodeUtf8 rowText)
        (some (encodeUtf8 oldChecksumText)) exportedBucket savedBucket
        (processPrefix rowHash "export/t".toList false) := by
  obtain ⟨next, hnext⟩ := reaches_copyObject exportedTable "/export".toList
    (by rw [sort_exportedBucket]; decide +kernel) lookup_exportedBucket_scheme
    (lookup_exportedBucket_backup _ List.mem_cons_self)
  have hreach : Restarts s3.faulty (IsRun rowHash)
      (exportedBucket, processPrefix rowHash "/export".toList false)
      (savedBucket, processPrefix rowHash "export/t".toList false) :=
    ((Restarts.of_reaches hnext).tail (.operation (Or.inl s3_copyObject))).tail (.restart ⟨_, rfl⟩)
  exact ⟨hreach, process_converges rowHash tableKey _ documentText rowText
    [documentAttribute] _ _ _ _ _ isSchemePb_tableKey (decodeUtf8_encodeUtf8 _)
    rewriteDocumentScheme_documentText requireRowScheme_rowText lookup_exportedBucket_scheme
    (lookup_exportedBucket_backup _ (by decide)) (lookup_exportedBucket_backup _ (by decide))
    lookup_exportedBucket_checksum outdated_oldChecksumText ⟨_, rfl⟩ hreach⟩

end OneTable

end Backup
end YdbSnippets
