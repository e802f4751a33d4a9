import YdbSnippets.Backup.Blocks
import YdbSnippets.Effects.Program
import Mathlib.Data.Char
import Mathlib.Data.Finmap
import Mathlib.Data.Finset.Sort
import Mathlib.Data.List.Lex

/-!
# Correcting the schemes of an export

The run over the objects of a bucket: every `scheme.pb` under the prefix is
rewritten and its checksum file follows.  All operations of a run are on one
bucket.  The hash function is a parameter.
-/

namespace YdbSnippets
namespace Backup

open Python Effects

section Keys

/-- `SCHEME_NAME` -/
def schemeName : Str := "scheme.pb".toList

/-- `CHECKSUM_NAME` -/
def checksumName : Str := "scheme.pb.sha256".toList

/-- `SCHEME_BACKUP_NAME` -/
def schemeBackupName : Str := "scheme.pb.orig".toList

/-- `CHECKSUM_BACKUP_NAME` -/
def checksumBackupName : Str := "scheme.pb.sha256.orig".toList

/-- `is_scheme_pb` -/
def isSchemePb (key : Str) : Bool :=
  key == schemeName || endsWith key ('/' :: schemeName)

/-- `sibling_key` -/
def siblingKey (key filename : Str) : Str :=
  match Text.lastIndex '/' key with
  | none => filename
  | some slash => key.take (slash + 1) ++ filename

/-- `normalize_prefix` -/
def normalizePrefix (value : Str) : Str :=
  let value := (strip value).dropWhile (· == '/')
  if value == [] || value == ['.'] then []
  else if value == schemeName || endsWith value ('/' :: schemeName) then value
  else if endsWith value ['/'] then value
  else value ++ ['/']

end Keys

section Checksums

/-- `data.decode("utf-8")`, or `none` for a `UnicodeDecodeError`. -/
def decodeUtf8 (data : ByteArray) : Option Str :=
  data.utf8Decode?.map Array.toList

/-- `text.encode("utf-8")` -/
def encodeUtf8 (text : Str) : ByteArray :=
  (String.ofList text).toByteArray

/-- The digit of a number below 16. -/
def hexDigit (n : Nat) : Char :=
  if n < 10 then Char.ofNat (48 + n) else Char.ofNat (87 + n)

/-- `bytes.hex()` -/
def hexOfBytes (bytes : List UInt8) : Str :=
  bytes.flatMap (fun b => [hexDigit (b.toNat / 16), hexDigit (b.toNat % 16)])

variable (sha256 : ByteArray → Vector UInt8 32)

/-- `sha256_hex` -/
def sha256Hex (data : ByteArray) : Str :=
  hexOfBytes (sha256 data).toList

/-- The first part of `text.split()`. -/
def firstPart (text : Str) : Option Str :=
  let part := (text.dropWhile isSpace).takeWhile (fun c => !isSpace c)
  if part.isEmpty then none else some part

/-- `parse_checksum_file` -/
def parseChecksumFile (content : ByteArray) : Option Str := do
  let text ← decodeUtf8 content
  let token ← firstPart text
  if token.length = 64 ∧ token.all isHexDigit then some (token.map asciiLower) else none

/-- A character of `"0123456789abcdef"`. -/
def isLowerHexDigit (c : Char) : Bool :=
  c.isDigit || ('a' ≤ c && c ≤ 'f')

/-- `replace_checksum` -/
def replaceChecksum (original : ByteArray) (digest : Str) : Except Failure ByteArray :=
  if digest.length ≠ 64 ∨ !digest.all isLowerHexDigit then
    .error (.schemeError "внутренняя ошибка: контрольная сумма не в hex")
  else
    let text := (decodeUtf8 original).getD []
    let head := text.takeWhile (fun c => !isSpace c)
    if !head.isEmpty && head.all isHexDigit then
      .ok (encodeUtf8 (digest ++ text.drop head.length))
    else .ok (encodeUtf8 (digest ++ ' ' :: schemeName))

/-- `_require_row_scheme` -/
def requireRowScheme (key text : Str) : Except Failure Unit :=
  if !Text.occurs "columns".toList text || !Text.occurs "primary_key".toList text then
    .error (.schemeError (String.ofList key ++
      ": после удаления атрибутов в схеме не осталось columns/primary_key, запись отменена"))
  else .ok ()

end Checksums

section Operations

/-- The operations on the objects of the bucket. -/
inductive StoreOp
  | listKeys (pre : Str)
  | getObject (key : Str)
  | putObject (key : Str) (body : ByteArray)
  | copyObject (source dest : Str)
  | exists (key : Str)

/-- What each operation returns. -/
def storeSignature : Signature where
  Op := StoreOp
  Answer
    | .listKeys _ => List Str
    | .getObject _ => ByteArray
    | .putObject _ _ => Unit
    | .copyObject _ _ => Unit
    | .exists _ => Bool

abbrev StoreProgram (α : Type) := Program storeSignature Failure α

namespace StoreProgram

def listKeys (pre : Str) : StoreProgram (List Str) :=
  Program.perform (S := storeSignature) (.listKeys pre)

def getObject (key : Str) : StoreProgram ByteArray :=
  Program.perform (S := storeSignature) (.getObject key)

def putObject (key : Str) (body : ByteArray) : StoreProgram Unit :=
  Program.perform (S := storeSignature) (.putObject key body)

def copyObject (source dest : Str) : StoreProgram Unit :=
  Program.perform (S := storeSignature) (.copyObject source dest)

def exists_ (key : Str) : StoreProgram Bool :=
  Program.perform (S := storeSignature) (.exists key)

end StoreProgram

/-- The objects of the bucket. -/
abbrev Bucket := Finmap (fun _ : Str => ByteArray)

/-- A bucket in which every operation is carried out. -/
def s3 : Handler storeSignature Failure Bucket
  | s, .listKeys pre =>
      (.ok ((s.keys.sort (· ≤ ·)).filter (fun key => pre.isPrefixOf key)), s)
  | s, .getObject key =>
      match s.lookup key with
      | some body => (.ok body, s)
      | none => (.error .clientError, s)
  | s, .putObject key body => (.ok (), s.insert key body)
  | s, .copyObject source dest =>
      match s.lookup source with
      | some body => (.ok (), s.insert dest body)
      | none => (.error .clientError, s)
  | s, .exists key => (.ok (s.lookup key).isSome, s)

end Operations

section Run

/-- The counters of a run. -/
structure Stats where
  schemeFiles : Nat
  updated : Nat
  skipped : Nat
  checksumsUpdated : Nat
  checksumsRepaired : Nat
  errors : Nat
deriving DecidableEq, Repr

variable (sha256 : ByteArray → Vector UInt8 32)

open StoreProgram

/-- Keep the original of an object, unless one is kept already. -/
def saveOriginal (key backupKey : Str) (dryRun : Bool) : StoreProgram Unit := do
  let saved ← exists_ backupKey
  if saved || dryRun then pure () else copyObject key backupKey

/-- The object at a key, if there is one. -/
def getIfExists (key : Str) : StoreProgram (Option ByteArray) := do
  let existed ← exists_ key
  if existed then do
    let body ← getObject key
    return some body
  else return none

/-- `_write_checksum` -/
def writeChecksum (checksumKey checksumOrigKey : Str) (oldChecksum schemeBytes : ByteArray)
    (dryRun : Bool) : StoreProgram Unit := do
  let newChecksum ← Program.ofExcept (replaceChecksum oldChecksum (sha256Hex sha256 schemeBytes))
  if parseChecksumFile newChecksum ≠ some (sha256Hex sha256 schemeBytes) then
    throw (.schemeError (String.ofList checksumKey ++
      ": не удалось собрать файл контрольной суммы"))
  else do
    saveOriginal checksumKey checksumOrigKey dryRun
    if dryRun then pure () else putObject checksumKey newChecksum

/-- The end of `repairChecksum`, once the checksum file has been looked for. -/
def repairCurrent (key : Str) (raw : ByteArray) (dryRun : Bool) (stats : Stats) :
    Option ByteArray → StoreProgram Stats
  | none => return { stats with skipped := stats.skipped + 1 }
  | some current =>
      if parseChecksumFile current ≠ some (sha256Hex sha256 raw) then do
        writeChecksum sha256 (siblingKey key checksumName)
          (siblingKey key checksumBackupName) current raw dryRun
        return { stats with checksumsRepaired := stats.checksumsRepaired + 1 }
      else return { stats with skipped := stats.skipped + 1 }

/-- The branch of `_process_scheme` for a scheme without the document
attribute: if the original is there and the checksum is not that of the
scheme, an interrupted run is finished. -/
def repairChecksum (key : Str) (raw : ByteArray) (dryRun : Bool) (stats : Stats) :
    StoreProgram Stats := do
  let saved ← exists_ (siblingKey key schemeBackupName)
  let current ← if saved then getIfExists (siblingKey key checksumName) else pure none
  repairCurrent sha256 key raw dryRun stats current

/-- The end of `replaceScheme`, once the scheme is written. -/
def updateChecksum (key : Str) (newRaw : ByteArray) (dryRun : Bool) (stats : Stats) :
    Option ByteArray → StoreProgram Stats
  | some old => do
      writeChecksum sha256 (siblingKey key checksumName)
        (siblingKey key checksumBackupName) old newRaw dryRun
      return { stats with
        checksumsUpdated := stats.checksumsUpdated + 1
        updated := stats.updated + 1 }
  | none => return { stats with updated := stats.updated + 1 }

/-- The branch of `_process_scheme` that writes the new scheme. -/
def replaceScheme (key : Str) (raw newRaw : ByteArray) (dryRun : Bool) (stats : Stats) :
    StoreProgram Stats := do
  if newRaw.data = raw.data then
    throw (.schemeError (String.ofList key ++ ": правка не изменила файл"))
  else do
    saveOriginal key (siblingKey key schemeBackupName) dryRun
    let oldChecksum ← getIfExists (siblingKey key checksumName)
    if dryRun then pure () else putObject key newRaw
    updateChecksum sha256 key newRaw dryRun stats oldChecksum

theorem replaceScheme_of_ne
    {raw newRaw : ByteArray} (key : Str) (dryRun : Bool) (stats : Stats)
    (hne : newRaw ≠ raw) :
    replaceScheme sha256 key raw newRaw dryRun stats = (do
      saveOriginal key (siblingKey key schemeBackupName) dryRun
      let oldChecksum ← getIfExists (siblingKey key checksumName)
      if dryRun then pure () else putObject key newRaw
      updateChecksum sha256 key newRaw dryRun stats oldChecksum) :=
  if_neg (mt ByteArray.ext hne)

/-- The end of `processScheme`, once the scheme is read. -/
def processText (key : Str) (raw : ByteArray) (dryRun : Bool) (stats : Stats) :
    Option Str → StoreProgram Stats
  | none => throw (.schemeError (String.ofList key ++ ": scheme.pb не в UTF-8"))
  | some text => do
      let rewritten ← Program.ofExcept (rewriteDocumentScheme text)
      match rewritten with
      | none => repairChecksum sha256 key raw dryRun stats
      | some (newText, _) =>
          Program.ofExcept (requireRowScheme key newText)
          replaceScheme sha256 key raw (encodeUtf8 newText) dryRun stats

/-- `_process_scheme` -/
def processScheme (key : Str) (dryRun : Bool) (stats : Stats) : StoreProgram Stats := do
  let raw ← getObject key
  processText sha256 key raw dryRun stats (decodeUtf8 raw)

/-- The loop of `process_prefix`: a key that fails is counted, whatever it
raised. -/
def processKeys (dryRun : Bool) : List Str → Stats → StoreProgram Stats
  | [], stats => pure stats
  | key :: rest, stats => do
      let stats ← tryCatch (processScheme sha256 key dryRun stats)
        (fun _ => pure { stats with errors := stats.errors + 1 })
      processKeys dryRun rest stats

/-- `process_prefix` -/
def processPrefix (value : Str) (dryRun : Bool) : StoreProgram Stats := do
  let keys ← listKeys (normalizePrefix value)
  let schemeKeys := (keys.filter isSchemePb).mergeSort (fun a b => decide (a ≤ b))
  processKeys sha256 dryRun schemeKeys ⟨schemeKeys.length, 0, 0, 0, 0, 0⟩

end Run

end Backup
end YdbSnippets
