import YdbSnippets.Backup.Rejection
import YdbSnippets.Effects.Threads

/-!
# Several runs at once

Runs of the correction that are started on one bucket at the same time can take each
other's originals away.  What they cannot do is to leave a table half corrected: the
scheme is the exported or the corrected one at every moment, its checksum file is
never ahead of it, and a run that reports no errors leaves every document table that
it covers corrected, whatever fails and whatever the other runs do meanwhile.
-/

namespace YdbSnippets
namespace Backup

open Python Effects StoreProgram

section Contracts

variable {sha256 : ByteArray → Vector UInt8 32} (t : DocumentTable sha256)

namespace DocumentTable

/-- The checksum file has the sum of the corrected scheme. -/
def Summed (o : Objects) : Prop :=
  ∃ new, o.checksum = some new ∧ parseChecksumFile new = some (sha256Hex sha256 t.newScheme)

/-- The objects of the table at any moment.  Nothing is said of the bytes of a backup. -/
structure Kept (o : Objects) : Prop where
  scheme : o.scheme = some t.scheme ∨ o.scheme = some t.newScheme
  backup : o.scheme = some t.newScheme → o.schemeBackup.isSome = true
  checksum : o.checksum = t.checksum ∨
    (t.checksum.isSome = true ∧ o.scheme = some t.newScheme ∧ t.Summed o)

/-- What one run relies on and guarantees the others: nothing is taken back. -/
structure Forward (o o' : Objects) : Prop where
  kept : t.Kept o → t.Kept o'
  scheme : o.scheme = some t.newScheme → o'.scheme = some t.newScheme
  backup : o.schemeBackup.isSome = true → o'.schemeBackup.isSome = true
  checksum : t.Summed o → t.Summed o'

/-- The table is corrected. -/
structure Done (o : Objects) : Prop where
  scheme : o.scheme = some t.newScheme
  checksum : t.checksum.isSome = true → t.Summed o

/-- The contract of a run. -/
def contract : Contract Bucket where
  rely s s' := t.Forward (objectsOf t.key s) (objectsOf t.key s')
  guarantee s s' := t.Forward (objectsOf t.key s) (objectsOf t.key s')

/-- The outcome of a run or of a part of it: without new errors the table is corrected
if it was `listed`. -/
def DoneUnlessErrors (errors : Nat) (listed : Prop) : Except Failure Stats → Bucket → Prop
  | .ok stats, s => errors ≤ stats.errors ∧
      (stats.errors = errors → listed → t.Done (objectsOf t.key s))
  | .error _, _ => True

variable {t} {o o' : Objects}

theorem Forward.refl (t : DocumentTable sha256) (o : Objects) :
    t.Forward o o :=
  ⟨id, id, id, id⟩

theorem Forward.done
    (h : t.Forward o o') (hdone : t.Done o) :
    t.Done o' :=
  ⟨h.scheme hdone.scheme, fun hsome => h.checksum (hdone.checksum hsome)⟩

/-- A table without a checksum file keeps none. -/
theorem Kept.isSome_checksum
    (h : t.Kept o) {current : ByteArray} (hcurrent : o.checksum = some current) :
    t.checksum.isSome = true := by
  rcases h.checksum with heq | ⟨hsome, -, -⟩
  · rw [← heq, hcurrent]
    rfl
  · exact hsome

theorem stable_kept (t : DocumentTable sha256) :
    t.contract.Stable fun s => t.Kept (objectsOf t.key s) :=
  fun _ _ h hforward => hforward.kept h

end DocumentTable

end Contracts

section Writes

variable {sha256 : ByteArray → Vector UInt8 32} {t : DocumentTable sha256} {s : Bucket}

/-- The corrected scheme is put where the original is kept. -/
theorem forward_putScheme
    (hbackup : (objectsOf t.key s).schemeBackup.isSome = true) :
    t.Forward (objectsOf t.key s) (objectsOf t.key (s.insert t.key t.newScheme)) := by
  rw [objectsOf_insert_scheme t.isScheme]
  refine ⟨fun h => ⟨Or.inr rfl, fun _ => hbackup, ?_⟩, fun _ => rfl, id, id⟩
  exact h.checksum.imp_right fun ⟨hsome, _, hsummed⟩ => ⟨hsome, rfl, hsummed⟩

/-- A backup appears. -/
theorem forward_saveScheme
    (body : ByteArray) :
    t.Forward (objectsOf t.key s)
      (objectsOf t.key (s.insert (siblingKey t.key schemeBackupName) body)) := by
  rw [objectsOf_insert_schemeBackup t.isScheme]
  exact ⟨fun h => ⟨h.scheme, fun _ => rfl, h.checksum⟩, id, fun _ => rfl, id⟩

theorem forward_saveChecksum
    (body : ByteArray) :
    t.Forward (objectsOf t.key s)
      (objectsOf t.key (s.insert (siblingKey t.key checksumBackupName) body)) := by
  rw [objectsOf_insert_checksumBackup t.isScheme]
  exact ⟨fun h => ⟨h.scheme, h.backup, h.checksum⟩, id, id, id⟩

/-- The sum of the corrected scheme is put next to it. -/
theorem forward_putChecksum
    {new : ByteArray}
    (hsome : t.checksum.isSome = true)
    (hscheme : (objectsOf t.key s).scheme = some t.newScheme)
    (hnew : parseChecksumFile new = some (sha256Hex sha256 t.newScheme)) :
    t.Forward (objectsOf t.key s)
        (objectsOf t.key (s.insert (siblingKey t.key checksumName) new)) ∧
      t.Summed (objectsOf t.key (s.insert (siblingKey t.key checksumName) new)) := by
  rw [objectsOf_insert_checksum t.isScheme]
  have hsummed : t.Summed { objectsOf t.key s with checksum := some new } := ⟨new, rfl, hnew⟩
  exact ⟨⟨fun h => ⟨h.scheme, h.backup, Or.inr ⟨hsome, hscheme, hsummed⟩⟩, id, id,
    fun _ => hsummed⟩, hsummed⟩

end Writes

/-! ## One run among others -/

section Steps

variable {sha256 : ByteArray → Vector UInt8 32} {t : DocumentTable sha256}
variable {α : Type} {Q : Except Failure α → Bucket → Prop} {A B : Bucket → Prop} {s : Bucket}

/-- The table is kept at every moment of the program, and `Q` holds of its outcome. -/
abbrev KeepsTable (t : DocumentTable sha256) (Q : Except Failure α → Bucket → Prop) :
    StoreProgram α → Bucket → Prop :=
  Keeps s3.faulty t.contract (fun s => t.Kept (objectsOf t.key s)) Q

/-- What is known of the table stays so, and it is kept. -/
abbrev KnownTable (t : DocumentTable sha256) (A : Bucket → Prop) : Prop :=
  t.contract.Known (fun s => t.Kept (objectsOf t.key s)) A

theorem known_kept (t : DocumentTable sha256) :
    KnownTable t fun s => t.Kept (objectsOf t.key s) :=
  ⟨t.stable_kept, fun _ h => h⟩

/-- A program that ends here. -/
theorem keepsTable_ended
    {r : Except Failure α}
    (hknown : KnownTable t A) (hA : A s) (hQ : ∀ s, A s → Q r s) :
    KeepsTable t Q (Program.ofExcept r) s :=
  Keeps.ended hknown.stable hA hknown.inv hQ

theorem s3_unchanged_of_error
    {op : StoreOp} {e : Failure} {s' : Bucket}
    (h : s3 s op = (.error e, s')) :
    s' = s := by
  cases op with
  | listKeys pre => cases h
  | getObject key =>
      simp only [s3] at h
      split at h <;> exact (Prod.mk.inj h).2.symm
  | putObject key body => cases h
  | copyObject source dest =>
      simp only [s3] at h
      split at h
      · cases h
      · exact (Prod.mk.inj h).2.symm
  | «exists» key => cases h

/-- An operation and what follows.  Where it fails the program ends. -/
theorem keepsTable_call
    {op : StoreOp} {next : Except Failure (storeSignature.Answer op) → StoreProgram α}
    (hknown : KnownTable t A) (hA : A s)
    (hnext : ∀ e, next (.error e) = .raise e)
    (hQ : ∀ e s, t.Kept (objectsOf t.key s) → Q (.error e) s)
    (hop : ∀ s a s', A s → s3 s op = (.ok a, s') →
      t.Forward (objectsOf t.key s) (objectsOf t.key s') ∧ KeepsTable t Q (next (.ok a)) s') :
    KeepsTable t Q (.call op next) s := by
  refine Keeps.callOk hknown hA (fun s => DocumentTable.Forward.refl t _)
    (fun s e s' henv => ?_) hnext (fun e s hs => hQ e s (hknown.inv s hs))
    (fun s a s' hs henv => ?_)
  · rcases henv with hdone | ⟨-, hsame⟩
    · exact s3_unchanged_of_error hdone
    · exact hsame
  · rcases henv with hdone | ⟨⟨e, he⟩, -⟩
    · exact hop s a s' hs hdone
    · cases he

theorem keepsTable_perform
    {op : StoreOp} {f : storeSignature.Answer op → StoreProgram α}
    (hknown : KnownTable t A) (hA : A s)
    (hQ : ∀ e s, t.Kept (objectsOf t.key s) → Q (.error e) s)
    (hop : ∀ s a s', A s → s3 s op = (.ok a, s') →
      t.Forward (objectsOf t.key s) (objectsOf t.key s') ∧ KeepsTable t Q (f a) s') :
    KeepsTable t Q ((Program.perform op).bind f) s :=
  keepsTable_call hknown hA (fun _ => rfl) hQ hop

/-- The original of an object is kept, by this run or by another one. -/
theorem keepsTable_saveOriginal
    {Q : Except Failure Unit → Bucket → Prop} {key backup : Str}
    (hknown : KnownTable t A) (hA : A s) (hB : KnownTable t B)
    (hQ : ∀ e s, t.Kept (objectsOf t.key s) → Q (.error e) s)
    (hsaved : ∀ s, A s → (s.lookup backup).isSome = true → B s)
    (hcopied : ∀ s body, A s →
      t.Forward (objectsOf t.key s) (objectsOf t.key (s.insert backup body)) ∧
        B (s.insert backup body))
    (hok : ∀ s, B s → Q (.ok ()) s) :
    KeepsTable t Q (saveOriginal key backup false) s := by
  refine keepsTable_perform hknown hA hQ fun s saved s' hs hdone => ?_
  cases hdone
  refine ⟨DocumentTable.Forward.refl t _, ?_⟩
  simp only [Bool.or_false]
  split
  · next hsome => exact keepsTable_ended (r := .ok ()) hB (hsaved s hs hsome) hok
  · refine keepsTable_call hknown hs (fun _ => rfl) hQ fun s a s' hs hdone => ?_
    simp only [s3] at hdone
    split at hdone
    · cases hdone
      obtain ⟨hforward, hcopied⟩ := hcopied s _ hs
      exact ⟨hforward, keepsTable_ended (r := .ok ()) hB hcopied hok⟩
    · cases hdone

/-! ## The correction of the table -/

namespace DocumentTable

variable (t : DocumentTable sha256)

/-- What a run has read of the checksum file. -/
def ReadChecksum (o : Objects) : Option ByteArray → Prop
  | none => t.checksum = none
  | some current => t.checksum.isSome = true ∧ (t.checksum = some current ∨
      t.Summed o ∧ parseChecksumFile current = some (sha256Hex sha256 t.newScheme))

/-- The corrected scheme is in place. -/
structure Written (s : Bucket) : Prop where
  kept : t.Kept (objectsOf t.key s)
  scheme : (objectsOf t.key s).scheme = some t.newScheme

variable {t} {o : Objects}

/-- What is in the checksum file. -/
theorem Kept.readChecksum
    (h : t.Kept o) :
    t.ReadChecksum o o.checksum := by
  cases hcurrent : o.checksum with
  | none =>
      rcases h.checksum with heq | ⟨-, -, new, hnew, -⟩
      · exact heq.symm.trans hcurrent
      · rw [hcurrent] at hnew
        cases hnew
  | some current =>
      refine ⟨h.isSome_checksum hcurrent, ?_⟩
      rcases h.checksum with heq | ⟨-, -, new, hnew, hparse⟩
      · exact Or.inl (heq.symm.trans hcurrent)
      · obtain rfl := Option.some.inj (hcurrent.symm.trans hnew)
        exact Or.inr ⟨⟨current, hnew, hparse⟩, hparse⟩

theorem stable_readChecksum (t : DocumentTable sha256) (current : Option ByteArray) :
    t.contract.Stable fun s => t.ReadChecksum (objectsOf t.key s) current := by
  intro s s' h hforward
  cases current with
  | none => exact h
  | some current => exact ⟨h.1, h.2.imp_right fun hread => ⟨hforward.checksum hread.1, hread.2⟩⟩

theorem stable_done (t : DocumentTable sha256) :
    t.contract.Stable fun s => t.Done (objectsOf t.key s) :=
  fun _ _ h hforward => hforward.done h

theorem known_written (t : DocumentTable sha256) :
    KnownTable t t.Written :=
  ⟨fun _ _ h hforward => ⟨hforward.kept h.kept, hforward.scheme h.scheme⟩, fun _ h => h.kept⟩

end DocumentTable

/-- The checksum file is looked for, then read. -/
theorem keepsTable_readChecksum
    {Q : Except Failure (Option ByteArray) → Bucket → Prop}
    (hknown : KnownTable t A) (hA : A s)
    (hQ : ∀ e s, t.Kept (objectsOf t.key s) → Q (.error e) s)
    (hok : ∀ s current, A s → t.ReadChecksum (objectsOf t.key s) current → Q (.ok current) s) :
    KeepsTable t Q (getIfExists (siblingKey t.key checksumName)) s := by
  refine keepsTable_perform hknown hA hQ fun s existed s' hs hdone => ?_
  cases hdone
  refine ⟨DocumentTable.Forward.refl t _, ?_⟩
  have hread := (hknown.inv s hs).readChecksum
  split
  · refine keepsTable_perform hknown hs hQ fun s body s' hs hdone => ?_
    have hread := (hknown.inv s hs).readChecksum
    simp only [s3] at hdone
    split at hdone
    · next body' hbody =>
        obtain ⟨hanswer, rfl⟩ := Prod.mk.inj hdone
        obtain rfl := Except.ok.inj hanswer
        change (objectsOf t.key s).checksum = _ at hbody
        rw [hbody] at hread
        refine ⟨DocumentTable.Forward.refl t _, ?_⟩
        exact keepsTable_ended (r := .ok (some body'))
          (hknown.and (t.stable_readChecksum (some body'))) ⟨hs, hread⟩
          fun s hs => hok s _ hs.1 hs.2
    · cases hdone
  · next hnone =>
      have hbody : (objectsOf t.key s).checksum = none := Option.not_isSome_iff_eq_none.mp hnone
      rw [hbody] at hread
      exact keepsTable_ended (r := .ok none) (hknown.and (t.stable_readChecksum none))
        ⟨hs, hread⟩ fun s hs => hok s _ hs.1 hs.2

/-- What follows a part of a program that may fail. -/
theorem keepsTable_bind
    {β : Type} {Q : Except Failure β → Bucket → Prop}
    {f : α → StoreProgram β} {p : StoreProgram α}
    (hQ : ∀ e s, t.Kept (objectsOf t.key s) → Q (.error e) s)
    (h : ∀ R : Except Failure α → Bucket → Prop,
      (∀ e s, t.Kept (objectsOf t.key s) → R (.error e) s) →
      (∀ a s, KeepsTable t Q (f a) s → R (.ok a) s) → KeepsTable t R p s) :
    KeepsTable t Q (p.bind f) s := by
  refine Keeps.bind (h _ (fun e s hs => ?_) fun a s hs => hs)
  exact keepsTable_ended (r := .error e) (known_kept t) hs (hQ e)

/-- The sum of the corrected scheme is written once that scheme is in place. -/
theorem keepsTable_writeChecksum
    {Q : Except Failure Unit → Bucket → Prop}
    (old : ByteArray)
    (hsome : t.checksum.isSome = true) (hs : t.Written s)
    (hQ : ∀ e s, t.Kept (objectsOf t.key s) → Q (.error e) s)
    (hok : ∀ s, t.Written s → t.Summed (objectsOf t.key s) → Q (.ok ()) s) :
    KeepsTable t Q
      (writeChecksum sha256 (siblingKey t.key checksumName)
        (siblingKey t.key checksumBackupName) old t.newScheme false) s := by
  obtain ⟨new, hnew, hparse⟩ := replaceChecksum_spec sha256 old t.newScheme
  have hwritten := t.known_written
  rw [writeChecksum_eq _ _ _ hnew]
  refine keepsTable_bind hQ fun R hR hput => ?_
  refine keepsTable_saveOriginal hwritten hs hwritten hR (fun _ h _ => h) ?_ ?_
  · intro s body h
    have hforward := forward_saveChecksum (t := t) (s := s) body
    exact ⟨hforward, hwritten.stable _ _ h hforward⟩
  · intro s h
    refine hput _ _ ?_
    refine keepsTable_call hwritten h (fun _ => rfl) hQ fun s a s' h hdone => ?_
    cases hdone
    obtain ⟨hforward, hsummed⟩ := forward_putChecksum hsome h.scheme hparse
    refine ⟨hforward, keepsTable_ended (r := .ok ()) (A := fun s => t.Written s ∧
      t.Summed (objectsOf t.key s)) (hwritten.and fun _ _ h hforward => hforward.checksum h)
      ⟨hwritten.stable _ _ h hforward, hsummed⟩ fun s h => hok s h.1 h.2⟩

/-- The table is corrected if the program returns. -/
def DoneIfReturns (t : DocumentTable sha256) (r : Except Failure α) (s : Bucket) : Prop :=
  r.isOk = true → t.Done (objectsOf t.key s)

theorem doneIfReturns_error (e : Failure) (s : Bucket) :
    DoneIfReturns (α := α) t (.error e) s :=
  fun h => by cases h

/-- A program that returns here, where the table is corrected. -/
theorem keepsTable_done
    (a : α) (hkept : t.Kept (objectsOf t.key s)) (hdone : t.Done (objectsOf t.key s)) :
    KeepsTable t (DoneIfReturns t) (Program.pure a : StoreProgram α) s :=
  keepsTable_ended (r := .ok a) ((known_kept t).and t.stable_done) ⟨hkept, hdone⟩
    fun _ h _ => h.2

/-- The checksum file is written, and the program returns. -/
theorem keepsTable_finishChecksum
    (old : ByteArray) (a : α)
    (hsome : t.checksum.isSome = true) (hs : t.Written s) :
    KeepsTable t (DoneIfReturns t)
      ((writeChecksum sha256 (siblingKey t.key checksumName)
        (siblingKey t.key checksumBackupName) old t.newScheme false).bind
          fun _ => Program.pure a) s := by
  refine keepsTable_bind (fun e s _ => doneIfReturns_error e s) fun R hR hok => ?_
  refine keepsTable_writeChecksum old hsome hs hR fun s h hsummed => hok _ _ ?_
  exact keepsTable_done a h.kept ⟨h.scheme, fun _ => hsummed⟩

/-- A run that finds the corrected scheme. -/
theorem keepsTable_repairChecksum
    (stats : Stats) (hs : t.Written s) :
    KeepsTable t (DoneIfReturns t)
      (repairChecksum sha256 t.key t.newScheme false stats) s := by
  have herror := fun e s (_ : t.Kept (objectsOf t.key s)) =>
    doneIfReturns_error (α := Stats) (t := t) e s
  refine keepsTable_perform t.known_written hs herror fun s saved s' h hdone => ?_
  cases hdone
  have hbackup : (s.lookup (siblingKey t.key schemeBackupName)).isSome = true :=
    h.kept.backup h.scheme
  refine ⟨DocumentTable.Forward.refl t _, ?_⟩
  simp only [hbackup, if_true]
  refine keepsTable_bind herror fun R hR hok => ?_
  refine keepsTable_readChecksum t.known_written h hR fun s current h hread => hok _ _ ?_
  cases current with
  | none =>
      refine keepsTable_done _ h.kept ⟨h.scheme, fun hsome => ?_⟩
      rw [hread] at hsome
      cases hsome
  | some current =>
      rw [repairCurrent]
      split
      · exact keepsTable_finishChecksum current _ hread.1 h
      · next hparse =>
          refine keepsTable_done _ h.kept ⟨h.scheme, fun _ => ?_⟩
          rcases hread.2 with heq | ⟨hsummed, -⟩
          · exact absurd (not_not.mp hparse) (t.outdated current heq)
          · exact hsummed

/-- A run that finds the exported scheme. -/
theorem keepsTable_replaceScheme
    (stats : Stats) (hs : t.Kept (objectsOf t.key s)) :
    KeepsTable t (DoneIfReturns t)
      (replaceScheme sha256 t.key t.scheme t.newScheme false stats) s := by
  have herror := fun e s (_ : t.Kept (objectsOf t.key s)) =>
    doneIfReturns_error (α := Stats) (t := t) e s
  have hsaved : KnownTable t fun s => t.Kept (objectsOf t.key s) ∧
      (objectsOf t.key s).schemeBackup.isSome = true :=
    (known_kept t).and fun _ _ h hforward => hforward.backup h
  rw [replaceScheme_of_ne sha256 _ _ _ t.newScheme_ne]
  refine keepsTable_bind herror fun R hR hok => ?_
  refine keepsTable_saveOriginal (known_kept t) hs hsaved hR (fun _ h hsome => ⟨h, hsome⟩) ?_ ?_
  · intro s body h
    have hforward := forward_saveScheme (t := t) (s := s) body
    refine ⟨hforward, hforward.kept h, ?_⟩
    rw [objectsOf_insert_schemeBackup t.isScheme]
    rfl
  · intro s h
    refine hok _ _ (keepsTable_bind herror fun R hR hok => ?_)
    refine keepsTable_readChecksum hsaved h hR fun s current h hread => hok _ _ ?_
    have hboth := hsaved.and (t.stable_readChecksum current)
    refine keepsTable_perform hboth ⟨h, hread⟩ herror fun s a s' h hdone => ?_
    cases hdone
    have hforward := forward_putScheme h.1.2
    have hread := t.stable_readChecksum current _ _ h.2 hforward
    have hwritten : t.Written (s.insert t.key t.newScheme) := by
      refine ⟨hforward.kept h.1.1, ?_⟩
      rw [objectsOf_insert_scheme t.isScheme]
    refine ⟨hforward, ?_⟩
    cases current with
    | none =>
        refine keepsTable_done _ hwritten.kept ⟨hwritten.scheme, fun hsome => ?_⟩
        rw [hread] at hsome
        cases hsome
    | some old => exact keepsTable_finishChecksum old _ hread.1 hwritten

/-- `_process_scheme` on the table. -/
theorem keepsTable_processScheme
    (stats : Stats) (hs : t.Kept (objectsOf t.key s)) :
    KeepsTable t (DoneIfReturns t) (processScheme sha256 t.key false stats) s := by
  have herror := fun e s (_ : t.Kept (objectsOf t.key s)) =>
    doneIfReturns_error (α := Stats) (t := t) e s
  change KeepsTable t _ ((getObject t.key).bind fun raw =>
    processText sha256 t.key raw false stats (decodeUtf8 raw)) s
  refine keepsTable_perform (known_kept t) hs herror fun s raw s' h hdone => ?_
  simp only [s3] at hdone
  split at hdone
  · next raw' hraw =>
      obtain ⟨hanswer, rfl⟩ := Prod.mk.inj hdone
      obtain rfl := Except.ok.inj hanswer
      refine ⟨DocumentTable.Forward.refl t _, ?_⟩
      have hscheme : (objectsOf t.key s).scheme = some raw' := hraw
      rcases h.scheme with hold | hnew
      · obtain rfl := Option.some.inj (hscheme.symm.trans hold)
        rw [t.processText_scheme]
        exact keepsTable_replaceScheme stats h
      · obtain rfl := Option.some.inj (hscheme.symm.trans hnew)
        rw [t.processText_newScheme]
        exact keepsTable_repairChecksum stats ⟨h, hnew⟩
  · cases hdone

/-! ## The loop over the keys -/

/-- An operation that writes next to another scheme. -/
theorem objectsOf_of_writesNextTo
    {key other : Str} {op : StoreOp} {r : Except Failure (storeSignature.Answer op)}
    {s' : Bucket}
    (hkey : isSchemePb key = true) (hother : isSchemePb other = true)
    (hne : key ≠ other)
    (hwrites : WritesNextTo other op) (h : s3 s op = (r, s')) :
    objectsOf key s' = objectsOf key s := by
  cases op with
  | listKeys pre =>
      cases h
      rfl
  | getObject source =>
      simp only [s3] at h
      split at h <;> rw [(Prod.mk.inj h).2]
  | putObject dest body =>
      obtain ⟨name, hname, rfl⟩ := hwrites
      cases h
      exact objectsOf_insert_of_ne hkey hother hne hname
  | copyObject source dest =>
      obtain ⟨name, hname, rfl⟩ := hwrites
      simp only [s3] at h
      split at h
      · obtain ⟨-, rfl⟩ := Prod.mk.inj h
        exact objectsOf_insert_of_ne hkey hother hne hname
      · rw [(Prod.mk.inj h).2]
  | «exists» dest =>
      cases h
      rfl

/-- What is known of the table is kept while another one is corrected. -/
theorem keepsTable_processScheme_of_ne
    {other : Str} (stats : Stats)
    (hother : isSchemePb other = true) (hne : t.key ≠ other)
    (hknown : KnownTable t A) (hA : A s) :
    KeepsTable t (fun _ s => A s) (processScheme sha256 other false stats) s := by
  refine Keeps.of_uses hknown.stable (fun s op r s' hwrites hs henv => ?_) hknown.inv
    (fun _ _ hs => hs) (uses_processScheme hother false stats) hA
  have hsame : objectsOf t.key s' = objectsOf t.key s := by
    rcases henv with hdone | ⟨-, rfl⟩
    · exact objectsOf_of_writesNextTo t.isScheme hother hne hwrites hdone
    · rfl
  have hforward : t.Forward (objectsOf t.key s) (objectsOf t.key s') := by
    rw [hsame]
    exact DocumentTable.Forward.refl t _
  exact ⟨hforward, hknown.stable s s' hs hforward⟩

theorem CountedOnce.errors_eq
    {stats stats' : Stats} (h : CountedOnce stats (.ok stats')) :
    stats'.errors = stats.errors := by
  rcases h stats' rfl with rfl | rfl | rfl | rfl <;> rfl

/-- The loop of `process_prefix` counts what it could not correct. -/
theorem keepsTable_processKeys
    (keys : List Str) (stats : Stats) (listed : Prop)
    (hkeys : ∀ key ∈ keys, isSchemePb key = true)
    (hs : t.Kept (objectsOf t.key s))
    (hlisted : listed → t.Done (objectsOf t.key s) ∨ t.key ∈ keys) :
    KeepsTable t (t.DoneUnlessErrors stats.errors listed) (processKeys sha256 false keys stats)
      s := by
  have hknown : ∀ P : Prop, KnownTable t fun s => t.Kept (objectsOf t.key s) ∧
      (P → t.Done (objectsOf t.key s)) :=
    fun P => (known_kept t).and fun s s' h hforward hP => t.stable_done s s' (h hP) hforward
  induction keys generalizing stats listed s with
  | nil =>
      refine keepsTable_ended (r := .ok stats) (hknown listed) ⟨hs, fun h => ?_⟩
        fun s h => ⟨le_refl _, fun _ => h.2⟩
      exact (hlisted h).resolve_right List.not_mem_nil
  | cons key rest ih =>
      have hrest : ∀ key ∈ rest, isSchemePb key = true :=
        fun other h => hkeys other (List.mem_cons_of_mem _ h)
      -- `done`: the table is corrected before the rest of the loop
      have hnext : ∀ (done : Prop), (listed → done ∨ t.key ∈ rest) →
          ∀ r s, CountedOnce stats r ∧ t.Kept (objectsOf t.key s) ∧
            (r.isOk = true → done → t.Done (objectsOf t.key s)) →
          Keeps.catchPost s3.faulty t.contract (fun s => t.Kept (objectsOf t.key s))
            (Keeps.bindPost s3.faulty t.contract (fun s => t.Kept (objectsOf t.key s))
              (t.DoneUnlessErrors stats.errors listed) (processKeys sha256 false rest))
            (fun _ => Program.pure { stats with errors := stats.errors + 1 }) r s := by
        rintro done hdone (e | stats') s ⟨hcounted, hkept, hcorrected⟩
        · refine keepsTable_ended (r := .ok { stats with errors := stats.errors + 1 })
            (known_kept t) hkept fun s hs => ?_
          refine Keeps.weaken ?_ (ih _ False hrest hs False.elim)
          rintro (e | last) s - hlast
          · trivial
          · exact ⟨Nat.le_of_succ_le hlast.1,
              fun hsame _ => absurd (hsame ▸ hlast.1) (Nat.not_succ_le_self _)⟩
        · refine keepsTable_ended (r := .ok stats') (hknown done) ⟨hkept, hcorrected rfl⟩
            fun s hs => ?_
          change KeepsTable t _ (processKeys sha256 false rest stats') s
          rw [← hcounted.errors_eq]
          exact ih stats' listed hrest hs.1 fun h => (hdone h).imp_left hs.2
      refine Keeps.bind (Keeps.tryCatch ?_)
      have hcounted : (processScheme sha256 key false stats).Returns (CountedOnce stats) :=
        returns_processScheme key false stats
      by_cases heq : t.key = key
      · subst heq
        refine ((keepsTable_processScheme stats hs).and_returns hcounted).weaken ?_
        exact fun r s hkept h => hnext True (fun _ => Or.inl trivial) r s
          ⟨h.1, hkept, fun hok _ => h.2 hok⟩
      · have hother := keepsTable_processScheme_of_ne stats (hkeys key List.mem_cons_self) heq
          (hknown (t.Done (objectsOf t.key s))) ⟨hs, id⟩
        refine (hother.and_returns hcounted).weaken ?_
        refine fun r s' hkept h => hnext (t.Done (objectsOf t.key s)) (fun hl => ?_) r s'
          ⟨h.1, hkept, fun _ => h.2.2⟩
        exact (hlisted hl).imp_right fun hmem => (List.mem_cons.mp hmem).resolve_left heq

/-- A writing run. -/
theorem keepsTable_processPrefix
    (value : Str)
    (hs : t.Kept (objectsOf t.key s)) :
    KeepsTable t (t.DoneUnlessErrors 0 (normalizePrefix value <+: t.key))
      (processPrefix sha256 value false) s := by
  refine keepsTable_perform (known_kept t) hs (fun _ _ _ => trivial) fun s keys s' hs hdone => ?_
  cases hdone
  refine ⟨DocumentTable.Forward.refl t _, ?_⟩
  refine keepsTable_processKeys _ ⟨_, 0, 0, 0, 0, 0⟩ _ ?_ hs fun hcovers => Or.inr ?_
  · intro key hkey
    rw [(List.mergeSort_perm _ _).mem_iff, List.mem_filter] at hkey
    exact hkey.2
  · rw [(List.mergeSort_perm _ _).mem_iff, List.mem_filter, List.mem_filter, Finset.mem_sort]
    have hmem : t.key ∈ s.keys := by
      rw [Finmap.mem_keys, ← Finmap.lookup_isSome]
      change (objectsOf t.key s).scheme.isSome = true
      rcases hs.scheme with h | h <;> rw [h] <;> rfl
    exact ⟨⟨hmem, List.isPrefixOf_iff_prefix.mpr hcovers⟩, t.isScheme⟩

end Steps

/-! ## Several runs -/

section Pools

universe u

variable {κ : Type u}

/-- The writing runs with these prefixes. -/
def prefixRuns (sha256 : ByteArray → Vector UInt8 32) (values : List (κ × Str)) :
    List (κ × StoreProgram Stats) :=
  values.map fun run => (run.1, processPrefix sha256 run.2 false)

/-- What holds of a table while runs of the correction share the bucket. -/
structure HalfCorrected (sha256 : ByteArray → Vector UInt8 32)
    (key : Str) (scheme newScheme : ByteArray) (checksum : Option ByteArray)
    (values : List (κ × Str)) (pool : Pool κ storeSignature Failure Stats Bucket) : Prop where
  old_or_new :
    pool.world.lookup key = some scheme ∨ pool.world.lookup key = some newScheme
  backup_of_new :
    pool.world.lookup key = some newScheme →
      (pool.world.lookup (siblingKey key schemeBackupName)).isSome = true
  /-- the checksum file is never ahead of the scheme -/
  old_checksum_or_new :
    pool.world.lookup (siblingKey key checksumName) = checksum ∨
      (pool.world.lookup key = some newScheme ∧ ∃ new,
        pool.world.lookup (siblingKey key checksumName) = some new ∧
          parseChecksumFile new = some (sha256Hex sha256 newScheme))
  /-- a run without errors has corrected the table, or another one has -/
  corrected : ∀ k value stats, (k, value) ∈ values → normalizePrefix value <+: key →
    (k, .ok stats) ∈ pool.results → stats.errors = 0 →
      pool.world.lookup key = some newScheme ∧
      (checksum = none → pool.world.lookup (siblingKey key checksumName) = none) ∧
      (∀ c, checksum = some c → ∃ new,
        pool.world.lookup (siblingKey key checksumName) = some new ∧
          parseChecksumFile new = some (sha256Hex sha256 newScheme))

/-- The outcome of the run with the key `k`. -/
def RunDone {sha256 : ByteArray → Vector UInt8 32} (t : DocumentTable sha256)
    (values : List (κ × Str)) (k : κ) (r : Except Failure Stats) (s : Bucket) : Prop :=
  ∀ value, (k, value) ∈ values → t.DoneUnlessErrors 0 (normalizePrefix value <+: t.key) r s

theorem keepsTable_of_reachable
    {sha256 : ByteArray → Vector UInt8 32} {t : DocumentTable sha256}
    {s : Bucket} {drift : Bucket → Bucket → Prop} {workers : Nat}
    {values : List (κ × Str)} {pool : Pool κ storeSignature Failure Stats Bucket}
    (hs : t.Kept (objectsOf t.key s))
    (hnodup : (values.map Prod.fst).Nodup)
    (hdrift : ∀ s s', drift s s' → t.contract.rely s s')
    (hreach : Pool.Reachable s3.faulty drift workers s (prefixRuns sha256 values) pool) :
    ∀ job ∈ pool.jobs, KeepsTable t (RunDone t values job.1) job.2.rest pool.world := by
  refine Pool.keeps_of_reachable (c := fun _ => t.contract)
    (I := fun _ s => t.Kept (objectsOf t.key s)) ?_ (fun _ _ _ _ _ h => h)
    (fun _ _ => hdrift) ?_ hreach
  · simpa [prefixRuns, Function.comp_def] using hnodup
  · intro program hprogram
    obtain ⟨run, hrun, rfl⟩ := List.mem_map.mp hprogram
    refine (keepsTable_processPrefix run.2 hs).weaken fun r s _ h value hvalue => ?_
    obtain rfl : value = run.2 :=
      congrArg Prod.snd (List.inj_on_of_nodup_map hnodup hvalue hrun rfl)
    exact h

/-- Runs of the correction on one bucket, whatever fails in them and however their
operations interleave, with changes of other objects in between: the table is never
left with a checksum that is ahead of its scheme or without a backup, and a run
without errors means that the table is corrected, if its prefix covers it. -/
theorem concurrent_runs_correct
    (sha256 : ByteArray → Vector UInt8 32)
    (key : Str) (scheme : ByteArray) (text newText : Str) (removed : List CodePoints)
    (checksum : Option ByteArray)
    (s₀ : Bucket) (drift : Bucket → Bucket → Prop) (workers : Nat)
    (values : List (κ × Str)) (pool : Pool κ storeSignature Failure Stats Bucket)
    (hkey : isSchemePb key = true)
    (hdecoded : decodeUtf8 scheme = some text)
    (hrewrites : rewriteDocumentScheme text = .ok (some (newText, removed)))
    (hrow : requireRowScheme key newText = .ok ())
    (hscheme : s₀.lookup key = some scheme)
    (hchecksum : s₀.lookup (siblingKey key checksumName) = checksum)
    (houtdated : ∀ c, checksum = some c →
      parseChecksumFile c ≠ some (sha256Hex sha256 (encodeUtf8 newText)))
    (hnodup : (values.map Prod.fst).Nodup)
    (hdrift : ∀ s s', drift s s' → objectsOf key s' = objectsOf key s)
    (hreach : Pool.Reachable s3.faulty drift workers s₀ (prefixRuns sha256 values) pool) :
    HalfCorrected sha256 key scheme (encodeUtf8 newText) checksum values pool := by
  let t : DocumentTable sha256 :=
    ⟨key, hkey, scheme, text, hdecoded, newText, removed, hrewrites, hrow, checksum, houtdated⟩
  have hs₀ : t.Kept (objectsOf t.key s₀) :=
    ⟨Or.inl hscheme, fun hnew => absurd (Option.some.inj (hscheme.symm.trans hnew)).symm
      t.newScheme_ne, Or.inl hchecksum⟩
  have hdrift' : ∀ s s', drift s s' → t.contract.rely s s' := by
    intro s s' h
    change t.Forward (objectsOf t.key s) (objectsOf t.key s')
    rw [hdrift s s' h]
    exact DocumentTable.Forward.refl t _
  have hkeeps : ∀ pool, Pool.Reachable s3.faulty drift workers s₀ (prefixRuns sha256 values) pool →
      ∀ job ∈ pool.jobs, KeepsTable t (RunDone t values job.1) job.2.rest pool.world :=
    fun _ => keepsTable_of_reachable hs₀ hnodup hdrift'
  have hkept : t.Kept (objectsOf t.key pool.world) :=
    Pool.inv_of_reachable (I := fun s => t.Kept (objectsOf t.key s)) (c := fun _ => t.contract)
      (Q := RunDone t values) hs₀ (fun s s' h hkept => (hdrift' s s' h).kept hkept) hkeeps hreach
  refine ⟨hkept.scheme, hkept.backup, ?_, ?_⟩
  · exact hkept.checksum.imp_right fun ⟨_, hnew, hsummed⟩ => ⟨hnew, hsummed⟩
  · intro k value stats hvalue hcovers hresult herrors
    have hpost : RunDone t values k (.ok stats) pool.world :=
      Pool.post_of_mem_results (c := fun _ => t.contract)
        (I := fun _ s => t.Kept (objectsOf t.key s)) (Q := RunDone t values)
        hreach (hkeeps pool hreach) hresult
    have hdone := (hpost value hvalue).2 herrors hcovers
    refine ⟨hdone.scheme, ?_, ?_⟩
    · rintro rfl
      exact hkept.checksum.resolve_right fun h => by cases h.1
    · rintro c rfl
      exact hdone.checksum rfl

/-- Two runs come to the copy of the scheme at the same time: one copies it, the copy of
the other one fails. -/
theorem concurrent_runs_correct_one_table :
    ∃ pool : Pool Bool storeSignature Failure Stats Bucket,
      Pool.Reachable s3.faulty Eq 2 exportedBucket
        (prefixRuns rowHash [(false, "/export".toList), (true, "export/t".toList)]) pool ∧
      pool.running = 2 ∧ pool.world = savedBucket ∧
      HalfCorrected rowHash tableKey (encodeUtf8 documentText) (encodeUtf8 rowText)
        (some (encodeUtf8 oldChecksumText))
        [(false, "/export".toList), (true, "export/t".toList)] pool := by
  have hreaches := fun value hkeys => reaches_copyObject exportedTable value hkeys
    lookup_exportedBucket_scheme (lookup_exportedBucket_backup _ List.mem_cons_self)
  obtain ⟨next, hnext⟩ := hreaches "/export".toList
    (by rw [sort_exportedBucket]; decide +kernel)
  obtain ⟨next', hnext'⟩ := hreaches "export/t".toList
    (by rw [sort_exportedBucket]; decide +kernel)
  have htaken : Pool.Reachable s3.faulty Eq 2 exportedBucket
      (prefixRuns rowHash [(false, "/export".toList), (true, "export/t".toList)])
      ⟨exportedBucket, [(false, .running (processPrefix rowHash "/export".toList false)),
        (true, .running (processPrefix rowHash "export/t".toList false))], []⟩ :=
    (Relation.ReflTransGen.single (PoolStep.take _ [] _ false _ rfl (by simp) (by decide))).tail
      (PoolStep.take _ [(false, .running (processPrefix rowHash "/export".toList false))] []
        true _ rfl (by simp [Job.waiting]) (by simp [Pool.running, Job.busy]))
  have hboth := (htaken.trans (Pool.steps_of_reaches [] [_] hnext)).trans
    (Pool.steps_of_reaches [_] [] hnext')
  have hcopied := hboth.tail (.operation _ [_] [] true _ _ _ _ rfl (Or.inl s3_copyObject))
  have hreach := hcopied.tail (.operation _ [] [_] false _ _ _ _ rfl
    (Or.inr ⟨⟨Failure.clientError, rfl⟩, rfl⟩))
  refine ⟨_, hreach, rfl, rfl, concurrent_runs_correct rowHash tableKey _ documentText rowText
    [documentAttribute] _ exportedBucket Eq 2 _ _ isSchemePb_tableKey (decodeUtf8_encodeUtf8 _)
    rewriteDocumentScheme_documentText requireRowScheme_rowText lookup_exportedBucket_scheme
    lookup_exportedBucket_checksum outdated_oldChecksumText (by decide) (fun _ _ h => h ▸ rfl)
    hreach⟩

end Pools

end Backup
end YdbSnippets
