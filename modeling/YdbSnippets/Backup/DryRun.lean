import YdbSnippets.Backup.Convergence

/-!
# What a run is going to do

The four objects of a table determine what a run counts and writes for it; a
dry run counts the same and writes nothing.
-/

namespace YdbSnippets
namespace Backup

open Python Effects StoreProgram

section Plans

instance : Add Stats where
  add a b :=
    { schemeFiles := a.schemeFiles + b.schemeFiles
      updated := a.updated + b.updated
      skipped := a.skipped + b.skipped
      checksumsUpdated := a.checksumsUpdated + b.checksumsUpdated
      checksumsRepaired := a.checksumsRepaired + b.checksumsRepaired
      errors := a.errors + b.errors }

theorem Stats.add_right_comm
    (a b c : Stats) :
    a + b + c = a + c + b := by
  change Stats.mk _ _ _ _ _ _ = Stats.mk _ _ _ _ _ _
  simp only [Stats.mk.injEq]
  refine ⟨?_, ?_, ?_, ?_, ?_, ?_⟩ <;> exact Nat.add_right_comm _ _ _

/-- What is counted for a table, and the objects put, by their names. -/
structure Plan where
  counts : Stats
  writes : List (Str × ByteArray)

/-- The writes of `_write_checksum`. -/
def checksumWrites (o : Objects) (old new : ByteArray) : List (Str × ByteArray) :=
  (if o.checksumBackup.isSome then [] else [(checksumBackupName, old)]) ++ [(checksumName, new)]

variable (sha256 : ByteArray → Vector UInt8 32)

/-- What happens to a table whose scheme has no document attribute. -/
def planRepair (o : Objects) (raw : ByteArray) : Except Failure Plan :=
  match o.schemeBackup, o.checksum with
  | some _, some current =>
      if parseChecksumFile current ≠ some (sha256Hex sha256 raw) then do
        let new ← replaceChecksum current (sha256Hex sha256 raw)
        return ⟨⟨0, 0, 0, 0, 1, 0⟩, checksumWrites o current new⟩
      else return ⟨⟨0, 0, 1, 0, 0, 0⟩, []⟩
  | _, _ => return ⟨⟨0, 0, 1, 0, 0, 0⟩, []⟩

/-- What happens to a table that gets a new scheme. -/
def planReplace (key : Str) (o : Objects) (raw newRaw : ByteArray) : Except Failure Plan :=
  if newRaw.data = raw.data then
    .error (.schemeError (String.ofList key ++ ": правка не изменила файл"))
  else
    let saved := if o.schemeBackup.isSome then [] else [(schemeBackupName, raw)]
    let written := saved ++ [(schemeName, newRaw)]
    match o.checksum with
    | none => return ⟨⟨0, 1, 0, 0, 0, 0⟩, written⟩
    | some old => do
        let new ← replaceChecksum old (sha256Hex sha256 newRaw)
        return ⟨⟨0, 1, 0, 1, 0, 0⟩, written ++ checksumWrites o old new⟩

/-- What happens to a table with the objects `o`. -/
def planScheme (key : Str) (o : Objects) : Except Failure Plan :=
  match o.scheme with
  | none => .error .clientError
  | some raw =>
      match decodeUtf8 raw with
      | none => .error (.schemeError (String.ofList key ++ ": scheme.pb не в UTF-8"))
      | some text => do
          match ← rewriteDocumentScheme text with
          | none => planRepair sha256 o raw
          | some (newText, _) => do
              requireRowScheme key newText
              planReplace sha256 key o raw (encodeUtf8 newText)

/-- Put objects next to a scheme. -/
def carryOut (key : Str) (writes : List (Str × ByteArray)) (s : Bucket) : Bucket :=
  writes.foldl (fun s write => s.insert (siblingKey key write.1) write.2) s

theorem carryOut_cons
    (key : Str) (write : Str × ByteArray) (writes : List (Str × ByteArray)) (s : Bucket) :
    carryOut key (write :: writes) s =
      carryOut key writes (s.insert (siblingKey key write.1) write.2) := rfl

theorem carryOut_append
    (key : Str) (writes writes' : List (Str × ByteArray)) (s : Bucket) :
    carryOut key (writes ++ writes') s = carryOut key writes' (carryOut key writes s) :=
  List.foldl_append

/-- What is left of a run that follows a plan: the counters, and the bucket. -/
def settle (dryRun : Bool) (key : Str) (stats : Stats) (s : Bucket) :
    Except Failure Plan → Except Failure Stats × Bucket
  | .error e => (.error e, s)
  | .ok plan => (.ok (stats + plan.counts), if dryRun then s else carryOut key plan.writes s)

end Plans

section Refinement

variable {sha256 : ByteArray → Vector UInt8 32} {s : Bucket} {key backup : Str}

theorem run_exists
    {α : Type} (f : Bool → StoreProgram α) :
    (Program.bind (exists_ key) f).run s3 s = (f (s.lookup key).isSome).run s3 s := rfl

theorem run_getObject
    {α : Type} {body : ByteArray} (f : ByteArray → StoreProgram α)
    (hbody : s.lookup key = some body) :
    (Program.bind (getObject key) f).run s3 s = (f body).run s3 s := by
  have hanswer : s3 s (.getObject key) = (.ok body, s) := by simp only [s3, hbody]
  change Program.run s3 (Program.bind (Program.ofExcept (s3 s (.getObject key)).1) f)
    (s3 s (.getObject key)).2 = _
  rw [hanswer]
  rfl

theorem run_putObject
    {α : Type} {body : ByteArray} (f : Unit → StoreProgram α) :
    (Program.bind (putObject key body) f).run s3 s = (f ()).run s3 (s.insert key body) := rfl

theorem run_saveOriginal
    {body : ByteArray} (dryRun : Bool)
    (hbody : s.lookup key = some body) :
    (saveOriginal key backup dryRun).run s3 s =
      (.ok (), if (s.lookup backup).isSome || dryRun then s else s.insert backup body) := by
  refine (run_exists _).trans ?_
  split
  · rfl
  · refine (Program.run_perform (S := storeSignature) _ _).trans ?_
    simp only [s3, hbody]
    rfl

theorem run_getIfExists :
    (getIfExists key).run s3 s = (.ok (s.lookup key), s) := by
  refine (run_exists _).trans ?_
  cases hbody : s.lookup key with
  | none => rfl
  | some body => exact run_getObject _ hbody

/-- The checksum file is replaced, and the old one kept. -/
theorem run_writeChecksum
    {old new body : ByteArray} (dryRun : Bool)
    (hold : (objectsOf key s).checksum = some old)
    (hnew : replaceChecksum old (sha256Hex sha256 body) = .ok new) :
    (writeChecksum sha256 (siblingKey key checksumName) (siblingKey key checksumBackupName)
        old body dryRun).run s3 s =
      (.ok (),
        if dryRun then s else carryOut key (checksumWrites (objectsOf key s) old new) s) := by
  rw [writeChecksum_eq _ _ _ hnew, Program.run_bind, run_saveOriginal dryRun hold]
  have hbackup : s.lookup (siblingKey key checksumBackupName) =
      (objectsOf key s).checksumBackup := rfl
  rw [hbackup]
  unfold checksumWrites carryOut
  cases dryRun with
  | true =>
      rw [Bool.or_true]
      rfl
  | false =>
      cases (objectsOf key s).checksumBackup with
      | none => rfl
      | some kept => rfl

/-- The part of a run that finishes an interrupted one. -/
theorem run_repairChecksum
    (raw : ByteArray) (dryRun : Bool) (stats : Stats) :
    (repairChecksum sha256 key raw dryRun stats).run s3 s =
      settle dryRun key stats s (planRepair sha256 (objectsOf key s) raw) := by
  have hskip : (Except.ok (ε := Failure) { stats with skipped := stats.skipped + 1 }, s) =
      settle dryRun key stats s (.ok ⟨⟨0, 0, 1, 0, 0, 0⟩, []⟩) := by
    cases dryRun <;> rfl
  refine (run_exists _).trans ?_
  unfold planRepair
  change _ = settle dryRun key stats s (match s.lookup (siblingKey key schemeBackupName),
    s.lookup (siblingKey key checksumName) with | some _, some current => _ | _, _ => _)
  cases hbackup : s.lookup (siblingKey key schemeBackupName) with
  | none => exact hskip
  | some kept =>
      simp only [Option.isSome_some, if_true]
      rw [Program.bind_def, Program.run_bind, run_getIfExists]
      cases hchecksum : s.lookup (siblingKey key checksumName) with
      | none => exact hskip
      | some current =>
          dsimp only
          rw [repairCurrent]
          by_cases hparse : parseChecksumFile current ≠ some (sha256Hex sha256 raw)
          · rw [if_pos hparse, if_pos hparse]
            obtain ⟨new, hnew, -⟩ := replaceChecksum_spec sha256 current raw
            rw [Program.bind_def, Program.run_bind, run_writeChecksum dryRun hchecksum hnew, hnew]
            rfl
          · rw [if_neg hparse, if_neg hparse]
            exact hskip

/-- Keeping and writing the scheme leaves the checksum file alone. -/
theorem objectsOf_schemeWritten
    (hkey : isSchemePb key = true) (saved : Bool) (raw newRaw : ByteArray) :
    let s' := carryOut key
      ((if saved then [] else [(schemeBackupName, raw)]) ++ [(schemeName, newRaw)]) s
    (objectsOf key s').checksum = (objectsOf key s).checksum ∧
      (objectsOf key s').checksumBackup = (objectsOf key s).checksumBackup := by
  have hscheme : siblingKey key schemeName = key := by
    rw [siblingKey_eq, ← eq_directory_append hkey]
  cases saved with
  | true =>
      simp only [carryOut, if_true, List.nil_append, List.foldl_cons, List.foldl_nil, hscheme,
        objectsOf_insert_scheme hkey, and_self]
  | false =>
      simp only [carryOut, Bool.false_eq_true, if_false, List.cons_append, List.nil_append,
        List.foldl_cons, List.foldl_nil, hscheme, objectsOf_insert_scheme hkey,
        objectsOf_insert_schemeBackup hkey, and_self]

/-- The part of a run that writes a new scheme. -/
theorem run_replaceScheme
    {raw : ByteArray} (newRaw : ByteArray) (dryRun : Bool) (stats : Stats)
    (hkey : isSchemePb key = true)
    (hraw : s.lookup key = some raw) :
    (replaceScheme sha256 key raw newRaw dryRun stats).run s3 s =
      settle dryRun key stats s (planReplace sha256 key (objectsOf key s) raw newRaw) := by
  unfold planReplace
  by_cases hsame : newRaw.data = raw.data
  · rw [replaceScheme, if_pos hsame, if_pos hsame]
    rfl
  rw [replaceScheme_of_ne sha256 _ _ _ (mt (congrArg ByteArray.data) hsame), if_neg hsame]
  -- the scheme is written: what is left is the checksum file
  obtain ⟨hchecksum, hbackup⟩ := objectsOf_schemeWritten (s := s) hkey
    (objectsOf key s).schemeBackup.isSome raw newRaw
  have hstate : (if (s.lookup (siblingKey key schemeBackupName)).isSome then s
      else s.insert (siblingKey key schemeBackupName) raw).insert key newRaw =
      carryOut key ((if (objectsOf key s).schemeBackup.isSome then []
        else [(schemeBackupName, raw)]) ++ [(schemeName, newRaw)]) s := by
    have hscheme : siblingKey key schemeName = key := by
      rw [siblingKey_eq, ← eq_directory_append hkey]
    change _ = carryOut key ((if (s.lookup (siblingKey key schemeBackupName)).isSome then []
      else [(schemeBackupName, raw)]) ++ [(schemeName, newRaw)]) s
    cases (s.lookup (siblingKey key schemeBackupName)).isSome with
    | true => simp [carryOut, hscheme]
    | false => simp [carryOut, hscheme]
  refine (Program.run_bind _ _ _).trans ?_
  rw [run_saveOriginal dryRun hraw]
  refine (Program.run_bind _ _ _).trans ?_
  rw [run_getIfExists]
  dsimp only
  cases dryRun with
  | true =>
      rw [Bool.or_true, if_pos rfl, if_pos rfl]
      change (updateChecksum sha256 key newRaw true stats (objectsOf key s).checksum).run s3 s = _
      cases hold : (objectsOf key s).checksum with
      | none => rfl
      | some old =>
          obtain ⟨new, hnew, -⟩ := replaceChecksum_spec sha256 old newRaw
          refine (Program.run_bind _ _ _).trans ?_
          rw [run_writeChecksum true hold hnew]
          dsimp only
          rw [hnew]
          rfl
  | false =>
      have hkept : (if (s.lookup (siblingKey key schemeBackupName)).isSome then s
          else s.insert (siblingKey key schemeBackupName) raw).lookup
            (siblingKey key checksumName) = (objectsOf key s).checksum := by
        split
        · rfl
        · exact congrArg Objects.checksum (objectsOf_insert_schemeBackup hkey)
      rw [Bool.or_false, hkept]
      refine (run_putObject _).trans ?_
      rw [hstate]
      cases hold : (objectsOf key s).checksum with
      | none => rfl
      | some old =>
          obtain ⟨new, hnew, -⟩ := replaceChecksum_spec sha256 old newRaw
          refine (Program.run_bind _ _ _).trans ?_
          rw [run_writeChecksum false (hchecksum.trans hold) hnew]
          dsimp only
          rw [hnew, if_neg (by decide), checksumWrites, hbackup, ← checksumWrites,
            ← carryOut_append]
          rfl

theorem run_processScheme
    (dryRun : Bool) (stats : Stats)
    (hkey : isSchemePb key = true) :
    (processScheme sha256 key dryRun stats).run s3 s =
      settle dryRun key stats s (planScheme sha256 key (objectsOf key s)) := by
  unfold planScheme
  change _ = settle dryRun key stats s (match s.lookup key with | none => _ | some raw => _)
  cases hraw : s.lookup key with
  | none =>
      have hanswer : s3 s (.getObject key) = (.error .clientError, s) := by simp only [s3, hraw]
      change Program.run s3 (Program.bind (Program.ofExcept (s3 s (.getObject key)).1) _)
        (s3 s (.getObject key)).2 = _
      rw [hanswer]
      rfl
  | some raw =>
      refine (run_getObject _ hraw).trans ?_
      dsimp only
      cases decodeUtf8 raw with
      | none => rfl
      | some text =>
          dsimp only
          rw [processText]
          cases rewriteDocumentScheme text with
          | error e => rfl
          | ok rewritten =>
              cases rewritten with
              | none => exact run_repairChecksum raw dryRun stats
              | some result =>
                  obtain ⟨newText, removed⟩ := result
                  change Program.run s3 (Program.bind
                    (Program.ofExcept (requireRowScheme key newText)) fun _ =>
                      replaceScheme sha256 key raw (encodeUtf8 newText) dryRun stats) s =
                    settle dryRun key stats s ((requireRowScheme key newText).bind fun _ =>
                      planReplace sha256 key (objectsOf key s) raw (encodeUtf8 newText))
                  cases requireRowScheme key newText with
                  | error e => rfl
                  | ok _ => exact run_replaceScheme _ dryRun stats hkey hraw

end Refinement

section Writes

variable {sha256 : ByteArray → Vector UInt8 32} {s : Bucket} {key other : Str}

/-- The objects of a table, by their names. -/
def siblingNames : List Str :=
  [schemeName, schemeBackupName, checksumName, checksumBackupName]

theorem no_slash_of_mem_siblingNames
    {name : Str} (h : name ∈ siblingNames) :
    '/' ∉ name := by
  revert name
  decide

theorem checksumWrites_names
    {o : Objects} {old new : ByteArray} {write : Str × ByteArray}
    (h : write ∈ checksumWrites o old new) :
    write.1 ∈ siblingNames := by
  have hbackup : checksumBackupName ∈ siblingNames := by decide
  have hchecksum : checksumName ∈ siblingNames := by decide
  rcases List.mem_append.mp h with h | h
  · split at h
    · cases h
    · rw [List.mem_singleton.mp h]
      exact hbackup
  · rw [List.mem_singleton.mp h]
    exact hchecksum

theorem planRepair_names
    {o : Objects} {raw : ByteArray} {plan : Plan}
    (h : planRepair sha256 o raw = .ok plan) :
    ∀ write ∈ plan.writes, write.1 ∈ siblingNames := by
  intro write hwrite
  unfold planRepair at h
  split at h
  · next current _ _ =>
      split at h
      · obtain ⟨new, hnew, -⟩ := replaceChecksum_spec sha256 current raw
        rw [hnew] at h
        cases h
        exact checksumWrites_names hwrite
      · cases h
        cases hwrite
  · cases h
    cases hwrite

theorem planReplace_names
    {o : Objects} {raw newRaw : ByteArray} {plan : Plan}
    (h : planReplace sha256 key o raw newRaw = .ok plan) :
    ∀ write ∈ plan.writes, write.1 ∈ siblingNames := by
  have hwritten : ∀ write ∈ (if o.schemeBackup.isSome then [] else [(schemeBackupName, raw)]) ++
      [(schemeName, newRaw)], write.1 ∈ siblingNames := by
    have hbackup : schemeBackupName ∈ siblingNames := by decide
    have hscheme : schemeName ∈ siblingNames := by decide
    intro write hwrite
    rcases List.mem_append.mp hwrite with hwrite | hwrite
    · split at hwrite
      · cases hwrite
      · rw [List.mem_singleton.mp hwrite]
        exact hbackup
    · rw [List.mem_singleton.mp hwrite]
      exact hscheme
  intro write hwrite
  unfold planReplace at h
  split at h
  · cases h
  · cases hold : o.checksum with
    | none =>
        rw [hold] at h
        cases h
        exact hwritten write hwrite
    | some old =>
        obtain ⟨new, hnew, -⟩ := replaceChecksum_spec sha256 old newRaw
        rw [hold] at h
        dsimp only at h
        rw [hnew] at h
        cases h
        rcases List.mem_append.mp hwrite with hwrite | hwrite
        · exact hwritten write hwrite
        · exact checksumWrites_names hwrite

/-- Only objects of the table are planned to be put. -/
theorem planScheme_names
    {o : Objects} {plan : Plan}
    (h : planScheme sha256 key o = .ok plan) :
    ∀ write ∈ plan.writes, write.1 ∈ siblingNames := by
  unfold planScheme at h
  split at h
  · cases h
  · split at h
    · cases h
    · next text _ =>
        cases hrewrite : rewriteDocumentScheme text with
        | error e =>
            rw [hrewrite] at h
            cases h
        | ok rewritten =>
            rw [hrewrite] at h
            cases rewritten with
            | none => exact planRepair_names h
            | some result =>
                obtain ⟨newText, removed⟩ := result
                cases hrow : requireRowScheme key newText with
                | error e =>
                    change ((requireRowScheme key newText).bind fun _ => _) = _ at h
                    rw [hrow] at h
                    cases h
                | ok _ =>
                    change ((requireRowScheme key newText).bind fun _ => _) = _ at h
                    rw [hrow] at h
                    exact planReplace_names h

/-- What is planned to be put for a table in a bucket; nothing if it fails. -/
def writesOf (sha256 : ByteArray → Vector UInt8 32) (s : Bucket) (key : Str) :
    List (Str × ByteArray) :=
  match planScheme sha256 key (objectsOf key s) with
  | .error _ => []
  | .ok plan => plan.writes

/-- What is counted for a table in a bucket. -/
def countsOf (sha256 : ByteArray → Vector UInt8 32) (s : Bucket) (key : Str) : Stats :=
  match planScheme sha256 key (objectsOf key s) with
  | .error _ => ⟨0, 0, 0, 0, 0, 1⟩
  | .ok plan => plan.counts

theorem writesOf_names
    {write : Str × ByteArray}
    (h : write ∈ writesOf sha256 s key) :
    write.1 ∈ siblingNames := by
  unfold writesOf at h
  split at h
  · cases h
  · next plan hplan => exact planScheme_names hplan write h

/-- Putting objects of one table leaves the others alone. -/
theorem objectsOf_carryOut
    {writes : List (Str × ByteArray)}
    (hkey : isSchemePb key = true) (hother : isSchemePb other = true) (hne : key ≠ other)
    (hnames : ∀ write ∈ writes, write.1 ∈ siblingNames) :
    objectsOf key (carryOut other writes s) = objectsOf key s := by
  induction writes generalizing s with
  | nil => rfl
  | cons write writes ih =>
      have hslash := no_slash_of_mem_siblingNames (hnames write List.mem_cons_self)
      rw [carryOut_cons, ih fun w hw => hnames w (List.mem_cons_of_mem _ hw), siblingKey_eq]
      exact objectsOf_insert_of_ne hkey hother hne hslash

/-- The objects of different tables can be put in either order. -/
theorem carryOut_comm
    {writes writes' : List (Str × ByteArray)}
    (hkey : isSchemePb key = true) (hother : isSchemePb other = true) (hne : key ≠ other)
    (hnames : ∀ write ∈ writes, write.1 ∈ siblingNames)
    (hnames' : ∀ write ∈ writes', write.1 ∈ siblingNames) :
    carryOut other writes' (carryOut key writes s) =
      carryOut key writes (carryOut other writes' s) := by
  have hinsert : ∀ (name : Str) (body : ByteArray) (s : Bucket), '/' ∉ name →
      carryOut other writes' (s.insert (siblingKey key name) body) =
        (carryOut other writes' s).insert (siblingKey key name) body := by
    intro name body s hslash
    induction writes' generalizing s with
    | nil => rfl
    | cons write writes' ih =>
        have hslash' := no_slash_of_mem_siblingNames (hnames' write List.mem_cons_self)
        have hkeys : siblingKey key name ≠ siblingKey other write.1 := by
          rw [siblingKey_eq, siblingKey_eq]
          exact ne_of_isSchemePb hkey hother hne hslash hslash'
        rw [carryOut_cons, carryOut_cons, Finmap.insert_insert_of_ne _ hkeys,
          ih fun w hw => hnames' w (List.mem_cons_of_mem _ hw)]
  induction writes generalizing s with
  | nil => rfl
  | cons write writes ih =>
      have hslash := no_slash_of_mem_siblingNames (hnames write List.mem_cons_self)
      rw [carryOut_cons, carryOut_cons, ih fun w hw => hnames w (List.mem_cons_of_mem _ hw),
        hinsert _ _ _ hslash]

/-- Only the objects next to the scheme change. -/
theorem lookup_carryOut_of_ne
    {writes : List (Str × ByteArray)} {name : Str}
    (h : ∀ write ∈ writes, name ≠ siblingKey key write.1) :
    (carryOut key writes s).lookup name = s.lookup name := by
  induction writes generalizing s with
  | nil => rfl
  | cons write writes ih =>
      rw [carryOut_cons, ih fun w hw => h w (List.mem_cons_of_mem _ hw)]
      exact Finmap.lookup_insert_of_ne s (h write List.mem_cons_self)

end Writes

section Runs

variable {sha256 : ByteArray → Vector UInt8 32} {s s₀ : Bucket} {keys keys' : List Str}

/-- Put the objects planned for these tables in the bucket `s₀`. -/
def carryOutAll
    (sha256 : ByteArray → Vector UInt8 32) (s₀ : Bucket) (keys : List Str) (s : Bucket) : Bucket :=
  keys.foldl (fun s key => carryOut key (writesOf sha256 s₀ key) s) s

/-- Add what is counted for these tables in the bucket `s₀`. -/
def countAll
    (sha256 : ByteArray → Vector UInt8 32) (s₀ : Bucket) (keys : List Str) (stats : Stats) :
    Stats :=
  keys.foldl (fun stats key => stats + countsOf sha256 s₀ key) stats

/-- One turn of the loop: a table that fails is counted and left alone. -/
theorem run_processScheme_tryCatch
    {key : Str} (dryRun : Bool) (stats : Stats) (rest : Stats → StoreProgram Stats)
    (hkey : isSchemePb key = true) :
    (Program.bind (Program.tryCatch (processScheme sha256 key dryRun stats) fun _ =>
        Program.pure { stats with errors := stats.errors + 1 }) rest).run s3 s =
      (rest (stats + countsOf sha256 s key)).run s3
        (if dryRun then s else carryOut key (writesOf sha256 s key) s) := by
  rw [Program.run_bind, Program.run_tryCatch, run_processScheme dryRun stats hkey, countsOf,
    writesOf]
  cases planScheme sha256 key (objectsOf key s) with
  | error e => cases dryRun <;> rfl
  | ok plan => rfl

/-- A run over some tables does for each of them what was planned for it in the
bucket the run started with. -/
theorem run_processKeys
    (dryRun : Bool) (stats : Stats)
    (hkeys : ∀ key ∈ keys, isSchemePb key = true) (hnodup : keys.Nodup)
    (hsame : ∀ key ∈ keys, objectsOf key s = objectsOf key s₀) :
    (processKeys sha256 dryRun keys stats).run s3 s =
      (.ok (countAll sha256 s₀ keys stats),
        if dryRun then s else carryOutAll sha256 s₀ keys s) := by
  induction keys generalizing s stats with
  | nil => cases dryRun <;> rfl
  | cons key rest ih =>
      have hkey := hkeys key List.mem_cons_self
      have hrest : ∀ other ∈ rest, isSchemePb other = true :=
        fun other h => hkeys other (List.mem_cons_of_mem _ h)
      obtain ⟨hnew, hnodup⟩ := List.nodup_cons.mp hnodup
      have hcounts : countsOf sha256 s key = countsOf sha256 s₀ key := by
        rw [countsOf, countsOf, hsame key List.mem_cons_self]
      have hwrites : writesOf sha256 s key = writesOf sha256 s₀ key := by
        rw [writesOf, writesOf, hsame key List.mem_cons_self]
      refine (run_processScheme_tryCatch dryRun stats _ hkey).trans ?_
      rw [hcounts, hwrites]
      cases dryRun with
      | true =>
          exact ih _ hrest hnodup fun other h => hsame other (List.mem_cons_of_mem _ h)
      | false =>
          refine ih _ hrest hnodup fun other h => ?_
          rw [if_neg (by decide), objectsOf_carryOut (hrest other h) hkey
            (fun heq => hnew (heq ▸ h)) fun write => writesOf_names]
          exact hsame other (List.mem_cons_of_mem _ h)

/-- The tables can be processed in any order. -/
theorem countAll_perm
    (stats : Stats) (h : keys.Perm keys') :
    countAll sha256 s₀ keys stats = countAll sha256 s₀ keys' stats :=
  h.foldl_eq' (fun _ _ _ _ _ => Stats.add_right_comm _ _ _) stats

theorem carryOutAll_perm
    (hkeys : ∀ key ∈ keys, isSchemePb key = true)
    (h : keys.Perm keys') :
    carryOutAll sha256 s₀ keys s = carryOutAll sha256 s₀ keys' s := by
  refine h.foldl_eq' (fun key hkey other hother s => ?_) s
  by_cases heq : key = other
  · rw [heq]
  · exact carryOut_comm (hkeys key hkey) (hkeys other hother) heq
      (fun _ => writesOf_names) (fun _ => writesOf_names)

theorem lookup_carryOutAll_of_ne
    {name : Str}
    (h : ∀ key ∈ keys, ∀ sibling ∈ siblingNames, name ≠ siblingKey key sibling) :
    (carryOutAll sha256 s₀ keys s).lookup name = s.lookup name := by
  induction keys generalizing s with
  | nil => rfl
  | cons key rest ih =>
      refine (ih fun other hother => h other (List.mem_cons_of_mem _ hother)).trans ?_
      exact lookup_carryOut_of_ne fun write hwrite =>
        h key List.mem_cons_self write.1 (writesOf_names hwrite)

/-- The schemes a run lists: those under the normalised prefix. -/
def IsListed (value : Str) (s : Bucket) (key : Str) : Prop :=
  key ∈ s.keys ∧ normalizePrefix value <+: key ∧ isSchemePb key = true

/-- The keys a run goes through. -/
def listedKeys (value : Str) (s : Bucket) : List Str :=
  (((s.keys.sort (· ≤ ·)).filter fun key =>
    (normalizePrefix value).isPrefixOf key).filter isSchemePb).mergeSort fun a b => decide (a ≤ b)

theorem mem_listedKeys
    {value key : Str} :
    key ∈ listedKeys value s ↔ IsListed value s key := by
  rw [listedKeys, (List.mergeSort_perm _ _).mem_iff, List.mem_filter, List.mem_filter,
    Finset.mem_sort, List.isPrefixOf_iff_prefix, and_assoc, IsListed]

theorem nodup_listedKeys (value : Str) (s : Bucket) :
    (listedKeys value s).Nodup := by
  rw [listedKeys, (List.mergeSort_perm _ _).nodup_iff]
  exact ((Finset.sort_nodup _ _).filter _).filter _

/-- A dry run changes nothing and counts what the run counts that writes; this
one changes only objects next to the listed schemes, in whatever order it goes
through them. -/
theorem dry_run_predicts_run
    (sha256 : ByteArray → Vector UInt8 32) (value : Str) (s : Bucket) :
    ∃ stats s',
      (processPrefix sha256 value true).run s3 s = (.ok stats, s) ∧
      (processPrefix sha256 value false).run s3 s = (.ok stats, s') ∧
      (∀ name, s'.lookup name ≠ s.lookup name → ∃ key, IsListed value s key ∧
        name ∈ siblingNames.map (siblingKey key)) ∧
      ∀ keys : List Str, keys.Nodup → (∀ key, key ∈ keys ↔ IsListed value s key) →
        (processKeys sha256 false keys ⟨keys.length, 0, 0, 0, 0, 0⟩).run s3 s =
          (.ok stats, s') := by
  have hkeys : ∀ key ∈ listedKeys value s, isSchemePb key = true :=
    fun key h => (mem_listedKeys.mp h).2.2
  have hrun := fun dryRun => @run_processKeys sha256 s s _ dryRun
    ⟨(listedKeys value s).length, 0, 0, 0, 0, 0⟩ hkeys (nodup_listedKeys value s)
    fun _ _ => rfl
  refine ⟨_, _, hrun true, hrun false, ?_, ?_⟩
  · intro name hname
    by_contra hnone
    refine hname (lookup_carryOutAll_of_ne fun key hkey sibling hsibling heq => ?_)
    exact hnone ⟨key, mem_listedKeys.mp hkey, List.mem_map.mpr ⟨sibling, hsibling, heq.symm⟩⟩
  · intro keys hnodup hmem
    have hperm : keys.Perm (listedKeys value s) :=
      (List.perm_ext_iff_of_nodup hnodup (nodup_listedKeys value s)).mpr fun key =>
        (hmem key).trans mem_listedKeys.symm
    have hschemes : ∀ key ∈ keys, isSchemePb key = true := fun key h => ((hmem key).mp h).2.2
    rw [@run_processKeys sha256 s s _ false _ hschemes hnodup fun _ _ => rfl,
      countAll_perm _ hperm, hperm.length_eq, carryOutAll_perm hschemes hperm]

end Runs

end Backup
end YdbSnippets
