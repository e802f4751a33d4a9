import YdbSnippets.Backup.Convergence

/-!
# Rejected schemes

A scheme that is rejected is left alone, and every scheme is counted once.
-/

namespace YdbSnippets
namespace Backup

open Python Effects StoreProgram

section Rejection

variable {α β : Type} {sha256 : ByteArray → Vector UInt8 32}

/-- Operations are carried out, or raise an error of the store, whatever state
that leaves. -/
def unreliable : Environment storeSignature Failure Bucket :=
  fun s op r s' => s3 s op = (r, s') ∨ r = .error .clientError

/-- The program raises no `SchemeError`. -/
def NeverRejects (p : StoreProgram α) : Prop :=
  ∀ s, Safe unreliable (fun _ => True) (fun r _ => ∀ m, r ≠ .error (.schemeError m)) p s

/-- If the program raises a `SchemeError`, it leaves the bucket `s`. -/
def LeavesOnReject (s : Bucket) (r : Except Failure α) (s' : Bucket) : Prop :=
  ∀ m, r = .error (.schemeError m) → s' = s

/-- The store itself raises nothing but its own error. -/
theorem s3_error
    {s s' : Bucket} {op : storeSignature.Op} {e : Failure}
    (h : s3 s op = (.error e, s')) :
    e = .clientError := by
  cases op with
  | listKeys pre => cases h
  | getObject key =>
      simp only [s3] at h
      split at h
      · cases h
      · cases h
        rfl
  | putObject key body => cases h
  | copyObject source dest =>
      simp only [s3] at h
      split at h
      · cases h
      · cases h
        rfl
  | «exists» key => cases h

theorem unreliable_error
    {s s' : Bucket} {op : storeSignature.Op} {e : Failure}
    (h : unreliable s op (.error e) s') :
    e = .clientError := by
  rcases h with hdone | hfail
  · exact s3_error hdone
  · exact Except.error.inj hfail

theorem neverRejects_pure (a : α) :
    NeverRejects (.pure a) :=
  fun _ => ⟨trivial, fun _ h => by cases h⟩

theorem neverRejects_perform (op : storeSignature.Op) :
    NeverRejects (Program.perform op) := by
  intro s
  apply Safe.perform trivial
  intro r s' henv
  refine ⟨trivial, fun m heq => ?_⟩
  subst heq
  cases unreliable_error henv

theorem NeverRejects.bind
    {p : StoreProgram α} {f : α → StoreProgram β}
    (hp : NeverRejects p) (hf : ∀ a, NeverRejects (f a)) :
    NeverRejects (p.bind f) := by
  intro s
  apply Safe.bind
  refine (hp s).weaken ?_
  rintro (e | a) s' - h
  · exact fun m heq => h m (by cases heq; rfl)
  · exact hf a s'

theorem neverRejects_saveOriginal (key backup : Str) (dryRun : Bool) :
    NeverRejects (saveOriginal key backup dryRun) := by
  refine (neverRejects_perform _).bind fun saved => ?_
  split
  · exact neverRejects_pure ()
  · exact neverRejects_perform _

theorem neverRejects_getIfExists (key : Str) :
    NeverRejects (getIfExists key) := by
  refine (neverRejects_perform _).bind fun existed => ?_
  split
  · exact (neverRejects_perform _).bind fun body => neverRejects_pure _
  · exact neverRejects_pure _

/-- The new checksum file always parses, so none of the two errors about it is
ever raised. -/
theorem neverRejects_writeChecksum
    (checksumKey backup : Str) (old body : ByteArray) (dryRun : Bool) :
    NeverRejects (writeChecksum sha256 checksumKey backup old body dryRun) := by
  obtain ⟨new, hnew, -⟩ := replaceChecksum_spec sha256 old body
  rw [writeChecksum_eq _ _ _ hnew]
  refine (neverRejects_saveOriginal _ _ _).bind fun _ => ?_
  split
  · exact neverRejects_pure ()
  · exact neverRejects_perform _

theorem neverRejects_repairChecksum
    (key : Str) (raw : ByteArray) (dryRun : Bool) (stats : Stats) :
    NeverRejects (repairChecksum sha256 key raw dryRun stats) := by
  refine (neverRejects_perform _).bind fun saved => ?_
  have hrest : ∀ current, NeverRejects (repairCurrent sha256 key raw dryRun stats current) := by
    rintro (_ | current)
    · exact neverRejects_pure _
    · rw [repairCurrent]
      split
      · exact (neverRejects_writeChecksum _ _ _ _ _).bind fun _ => neverRejects_pure _
      · exact neverRejects_pure _
  dsimp only
  split
  · exact (neverRejects_getIfExists _).bind hrest
  · exact hrest none

/-- Once the new scheme differs from the old one, nothing is rejected. -/
theorem neverRejects_replaceScheme
    {raw newRaw : ByteArray} (key : Str) (dryRun : Bool) (stats : Stats)
    (hne : newRaw ≠ raw) :
    NeverRejects (replaceScheme sha256 key raw newRaw dryRun stats) := by
  rw [replaceScheme_of_ne sha256 _ _ _ hne]
  refine (neverRejects_saveOriginal _ _ _).bind fun _ => ?_
  refine (neverRejects_getIfExists _).bind fun oldChecksum => ?_
  have hrest : NeverRejects (updateChecksum sha256 key newRaw dryRun stats oldChecksum) := by
    cases oldChecksum with
    | none => exact neverRejects_pure _
    | some old => exact (neverRejects_writeChecksum _ _ _ _ _).bind fun _ => neverRejects_pure _
  dsimp only
  split
  · exact hrest
  · exact (neverRejects_perform _).bind fun _ => hrest

/-- Reading an object changes nothing, unless it raises an error of the store. -/
theorem safe_getObject
    {Q : Except Failure ByteArray → Bucket → Prop} {key : Str} {s : Bucket}
    (hok : ∀ body, Q (.ok body) s) (hfail : ∀ s', Q (.error .clientError) s') :
    Safe unreliable (fun _ => True) Q (getObject key) s := by
  refine ⟨trivial, fun r s' henv => ?_⟩
  cases r with
  | error e =>
      cases unreliable_error henv
      exact ⟨trivial, hfail s'⟩
  | ok body =>
      rcases henv with hdone | hfail
      · simp only [s3] at hdone
        split at hdone
        · cases hdone
          exact ⟨trivial, hok body⟩
        · cases hdone
      · cases hfail

/-- A scheme is rejected before anything is written. -/
theorem safe_processScheme_unreliable
    (key : Str) (dryRun : Bool) (stats : Stats) (s : Bucket) :
    Safe unreliable (fun _ => True) (LeavesOnReject s)
      (processScheme sha256 key dryRun stats) s := by
  have hraise : ∀ e : Failure, Safe unreliable (fun _ => True) (LeavesOnReject s)
      (Program.raise e : StoreProgram Stats) s := fun _ => ⟨trivial, fun _ _ => rfl⟩
  have hnever : ∀ p : StoreProgram Stats, NeverRejects p →
      Safe unreliable (fun _ => True) (LeavesOnReject s) p s := by
    intro p hp
    refine (hp s).weaken ?_
    intro r s' _ hr m heq
    exact absurd heq (hr m)
  apply Safe.bind
  refine safe_getObject (fun raw => ?_) (fun s' m heq => by cases heq)
  simp only [Safe.bindPost]
  cases decodeUtf8 raw with
  | none => exact hraise _
  | some text =>
      rw [processText]
      cases rewriteDocumentScheme text with
      | error e => exact hraise e
      | ok rewritten =>
          cases rewritten with
          | none => exact hnever _ (neverRejects_repairChecksum key raw dryRun stats)
          | some result =>
              obtain ⟨newText, removed⟩ := result
              change Safe unreliable (fun _ => True) (LeavesOnReject s)
                (Program.bind (Program.ofExcept (requireRowScheme key newText)) fun _ =>
                  replaceScheme sha256 key raw (encodeUtf8 newText) dryRun stats) s
              cases requireRowScheme key newText with
              | error e => exact hraise e
              | ok _ =>
                  by_cases hsame : encodeUtf8 newText = raw
                  · change Safe unreliable (fun _ => True) (LeavesOnReject s)
                      (replaceScheme sha256 key raw (encodeUtf8 newText) dryRun stats) s
                    rw [replaceScheme, if_pos (congrArg ByteArray.data hsame)]
                    exact hraise _
                  · exact hnever _ (neverRejects_replaceScheme key dryRun stats hsame)

end Rejection

section Counting

variable {sha256 : ByteArray → Vector UInt8 32}

/-- If a scheme is not rejected, it is counted as skipped, repaired or updated,
and a new checksum only for an updated one. -/
def CountedOnce (stats : Stats) (r : Except Failure Stats) : Prop :=
  ∀ stats', r = .ok stats' →
    stats' = { stats with skipped := stats.skipped + 1 } ∨
    stats' = { stats with checksumsRepaired := stats.checksumsRepaired + 1 } ∨
    stats' = { stats with updated := stats.updated + 1 } ∨
    stats' = { stats with
      checksumsUpdated := stats.checksumsUpdated + 1
      updated := stats.updated + 1 }

theorem countedOnce_error (stats : Stats) (e : Failure) :
    CountedOnce stats (.error e) :=
  fun _ h => by cases h

theorem returns_repairChecksum
    (key : Str) (raw : ByteArray) (dryRun : Bool) (stats : Stats) :
    (repairChecksum sha256 key raw dryRun stats).Returns (CountedOnce stats) := by
  have herror := countedOnce_error stats
  have hskip : CountedOnce stats (.ok { stats with skipped := stats.skipped + 1 }) :=
    fun _ h => Or.inl (Except.ok.inj h).symm
  have hrepair : CountedOnce stats
      (.ok { stats with checksumsRepaired := stats.checksumsRepaired + 1 }) :=
    fun _ h => Or.inr (Or.inl (Except.ok.inj h).symm)
  refine Program.returns_bind herror fun saved => ?_
  have hrest : ∀ current,
      (repairCurrent sha256 key raw dryRun stats current).Returns (CountedOnce stats) := by
    rintro (_ | current)
    · exact hskip
    · rw [repairCurrent]
      split
      · exact Program.returns_bind herror fun _ => hrepair
      · exact hskip
  dsimp only
  split
  · exact Program.returns_bind herror hrest
  · exact hrest none

theorem returns_replaceScheme
    (key : Str) (raw newRaw : ByteArray) (dryRun : Bool) (stats : Stats) :
    (replaceScheme sha256 key raw newRaw dryRun stats).Returns (CountedOnce stats) := by
  have herror := countedOnce_error stats
  unfold replaceScheme
  split
  · exact herror _
  refine Program.returns_bind herror fun _ => Program.returns_bind herror fun oldChecksum => ?_
  have hrest :
      (updateChecksum sha256 key newRaw dryRun stats oldChecksum).Returns (CountedOnce stats) := by
    cases oldChecksum with
    | none => exact fun _ h => Or.inr (Or.inr (Or.inl (Except.ok.inj h).symm))
    | some old =>
        refine Program.returns_bind herror fun _ => ?_
        exact fun _ h => Or.inr (Or.inr (Or.inr (Except.ok.inj h).symm))
  dsimp only
  split
  · exact hrest
  · exact Program.returns_bind herror fun _ => hrest

theorem returns_processScheme
    (key : Str) (dryRun : Bool) (stats : Stats) :
    (processScheme sha256 key dryRun stats).Returns (CountedOnce stats) := by
  have herror := countedOnce_error stats
  refine Program.returns_bind herror fun raw => ?_
  cases decodeUtf8 raw with
  | none => exact herror _
  | some text =>
      refine Program.returns_bind herror fun rewritten => ?_
      cases rewritten with
      | none => exact returns_repairChecksum key raw dryRun stats
      | some result =>
          exact Program.returns_bind herror fun _ => returns_replaceScheme key raw _ dryRun stats

/-- Every scheme but `left` of them is counted once. -/
def Balanced (left : Nat) (stats : Stats) : Prop :=
  stats.schemeFiles =
      stats.updated + stats.skipped + stats.checksumsRepaired + stats.errors + left ∧
    stats.checksumsUpdated ≤ stats.updated

/-- Whatever fails, the loop ends, and all schemes are counted. -/
theorem returns_processKeys
    {keys : List Str} {stats : Stats} (dryRun : Bool)
    (hbalanced : Balanced keys.length stats) :
    (processKeys sha256 dryRun keys stats).Returns fun r =>
      ∃ stats', r = .ok stats' ∧ Balanced 0 stats' := by
  induction keys generalizing stats with
  | nil => exact ⟨stats, rfl, hbalanced⟩
  | cons key rest ih =>
      obtain ⟨hsum, hle⟩ := hbalanced
      rw [List.length_cons] at hsum
      refine Program.returns_tryCatch_bind ((returns_processScheme key dryRun stats).mono ?_)
      rintro (e | stats') hcounted
      · exact ih ⟨by simp only; omega, hle⟩
      · rcases hcounted stats' rfl with rfl | rfl | rfl | rfl
        all_goals exact ih ⟨by simp only; omega, by simp only; omega⟩

/-- A scheme for which `_process_scheme` raises a `SchemeError` keeps all its
objects, and so do the others; and at the end of a run every scheme is counted
once, whatever failed. -/
theorem rejected_schemes_untouched
    (sha256 : ByteArray → Vector UInt8 32) :
    (∀ (key : Str) (dryRun : Bool) (stats : Stats) (s s' : Bucket) (message : String),
      Completes unreliable s (processScheme sha256 key dryRun stats)
        (.error (.schemeError message)) s' → s' = s) ∧
    (∀ (env : Environment storeSignature Failure Bucket) (keys : List Str) (dryRun : Bool)
      (s s' : Bucket) (r : Except Failure Stats),
      Completes env s (processKeys sha256 dryRun keys ⟨keys.length, 0, 0, 0, 0, 0⟩) r s' →
        ∃ stats, r = .ok stats ∧ Balanced 0 stats) ∧
    ∀ (env : Environment storeSignature Failure Bucket) (value : Str) (dryRun : Bool)
      (s s' : Bucket) (stats : Stats),
      Completes env s (processPrefix sha256 value dryRun) (.ok stats) s' → Balanced 0 stats := by
  refine ⟨?_, ?_, ?_⟩
  · intro key dryRun stats s s' message h
    exact (safe_processScheme_unreliable key dryRun stats s).post h message rfl
  · intro env keys dryRun s s' r h
    have hreturns := @returns_processKeys sha256 keys ⟨keys.length, 0, 0, 0, 0, 0⟩ dryRun
      ⟨by simp, le_refl 0⟩
    exact hreturns.of_completes h
  · intro env value dryRun s s' stats h
    have hreturns : (processPrefix sha256 value dryRun).Returns fun r =>
        ∀ stats, r = .ok stats → Balanced 0 stats := by
      refine Program.returns_bind (fun e stats h => by cases h) fun keys => ?_
      refine (returns_processKeys dryRun ⟨by simp, le_refl 0⟩).mono ?_
      rintro r ⟨stats', rfl, hbalanced⟩ stats heq
      cases heq
      exact hbalanced
    exact hreturns.of_completes h stats rfl

end Counting

end Backup
end YdbSnippets
