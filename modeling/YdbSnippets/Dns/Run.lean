import YdbSnippets.Dns.Apply
import YdbSnippets.Effects.Pages

/-!
# The run of `register_private_dns.py`

`run`, from its arguments to the last update, as a program that talks to the
cloud: the servers, the zones and the records are listed in pages, the plan is
made of what was listed, and `apply_changes` carries it out in batches.

An update may be lost before or after it was carried out, and every other request
may fail.  Nobody but the runs changes the zone.
-/

namespace YdbSnippets
namespace Dns

open Python Effects Pages

section Programs

/-- What ends a run: the `RegistrationError`s of the functions it calls, and its own. -/
inductive RunError
  | registration (e : RegistrationError)
  | noFolder
  | noZone
  | badTtl
  | zoneMismatch (zoneId normalized want : Str)
  | zoneNotFound (folderId want : Str)
  | zoneAmbiguous (want : Str) (ids : List Str)
deriving DecidableEq, Repr

/-- A zone as the API shows it. -/
structure DnsZone where
  id : Str
  zone : Str
deriving DecidableEq, Repr

/-- The requests.  `forever` is never answered. -/
inductive CloudCall
  | listServers (folderId filter token : Str)
  | getZone (zoneId : Str)
  | listZones (folderId token : Str)
  | listARecords (zoneId token : Str)
  | updateRecordSets (zoneId : Str) (deletions additions : List RecordSet)
  | waitOperation
  | forever

/-- A page is answered with the token of the next one. -/
def cloudApi : Signature where
  Op := CloudCall
  Answer
    | .listServers _ _ _ => List Server × Str
    | .getZone _ => DnsZone
    | .listZones _ _ => List DnsZone × Str
    | .listARecords _ _ => List RecordSet × Str
    | .updateRecordSets _ _ _ | .waitOperation => Unit
    | .forever => Empty

abbrev CloudProgram (α : Type) := Program cloudApi RunError α

/-- A listing that goes on for ever. -/
def endless {α : Type} : CloudProgram α :=
  (@Program.perform cloudApi _ .forever).bind fun never : Empty => never.elim

/-- What a function that asks for nothing returns or raises. -/
def registration {α : Type} (r : Except RegistrationError α) : Except RunError α :=
  r.mapError .registration

/-- `list_servers` -/
def listServers (pages : Nat) (folderId filter : Str) : CloudProgram (List Server) :=
  readPages (fun token => @Program.perform cloudApi _ (.listServers folderId filter token))
    (fun servers page => .ok (servers ++ page)) [] endless pages [] []

/-- One page of `resolve_zone`: the zones with the suffix are kept. -/
def matchZones (py : Interpreter) (want : Str) (matched : List DnsZone) :
    List DnsZone → Except RunError (List DnsZone)
  | [] => .ok matched
  | zone :: zones =>
      match normalizeZone py zone.zone with
      | .error e => .error (.registration e)
      | .ok normalized =>
          matchZones py want (if normalized = want then matched ++ [zone] else matched) zones

/-- The end of `resolve_zone`: one zone must have the suffix. -/
def onlyZone (folderId want : Str) : List DnsZone → Except RunError (Str × Str)
  | [] => .error (.zoneNotFound folderId want)
  | [zone] => .ok (zone.id, want)
  | matched => .error (.zoneAmbiguous want (matched.map DnsZone.id))

/-- `resolve_zone`, where the zone is known by its identifier. -/
def checkZone (py : Interpreter) (zoneId zoneName : Str) (zone : DnsZone) :
    Except RunError (Str × Str) :=
  match normalizeZone py zone.zone with
  | .error e => .error (.registration e)
  | .ok normalized =>
      if zoneName = [] then .ok (zone.id, normalized)
      else
        match normalizeZone py zoneName with
        | .error e => .error (.registration e)
        | .ok want =>
            if want ≠ normalized then .error (.zoneMismatch zoneId normalized want)
            else .ok (zone.id, normalized)

/-- `resolve_zone` -/
def resolveZone (py : Interpreter) (pages : Nat) (zoneId zoneName folderId : Str) :
    CloudProgram (Str × Str) :=
  if zoneId ≠ [] then do
    let zone ← @Program.perform cloudApi _ (.getZone zoneId)
    Program.ofExcept (checkZone py zoneId zoneName zone)
  else do
    let want ← Program.ofExcept (registration (normalizeZone py zoneName))
    let matched ← readPages (fun token => @Program.perform cloudApi _ (.listZones folderId token))
      (matchZones py want) [] endless pages [] []
    Program.ofExcept (onlyZone folderId want matched)

/-- `list_a_records` -/
def listARecords (pages : Nat) (zoneId : Str) : CloudProgram (List RecordSet) :=
  readPages (fun token => @Program.perform cloudApi _ (.listARecords zoneId token))
    (fun records page => .ok (records ++ page)) [] endless pages [] []

/-- The arguments of the script. -/
structure RunArgs where
  folderId : Str
  dnsFolderId : Str
  zoneId : Str
  zone : Str
  prefixes : List Str
  ttl : Int
  filter : Str
  dryRun : Bool
  noPrune : Bool

/-- The checks of `run` before it asks for anything. -/
def checkArgs (py : Interpreter) (args : RunArgs) : Except RunError (List Str) :=
  if args.folderId = [] then .error .noFolder
  else if args.zoneId = [] ∧ args.zone = [] then .error .noZone
  else if args.ttl < 0 ∨ args.ttl > 2147483647 then .error .badTtl
  else registration (parsePrefixes py args.prefixes)

/-- The folder of the zone. -/
def RunArgs.dnsFolder (args : RunArgs) : Str :=
  if args.dnsFolderId = [] then args.folderId else args.dnsFolderId

/-- What `run` keeps of other names. -/
def RunArgs.scope (args : RunArgs) (inventory : Inventory) : Option (Finset Str) :=
  pruneScope inventory.serverNames (decide (args.filter ≠ [])) (!args.noPrune)

/-- The requests of `apply_changes`, for a zone of the cloud. -/
def zoneRequest (zoneId : Str) : (op : DnsCall) → CloudProgram (dnsApi.Answer op)
  | .updateRecordSets deletions additions =>
      Program.perform (S := cloudApi) (.updateRecordSets zoneId deletions additions)
  | .waitOperation => Program.perform (S := cloudApi) .waitOperation

/-- `apply_changes`, on a zone of the cloud. -/
def updateZoneBy (zoneId : Str) (changes : List RecordChange) : CloudProgram Unit :=
  (applyChanges changes).embed (zoneRequest zoneId) .registration

/-- `run`; `deleting` is the number of the state `Server.DELETING`, and `pages` bounds
how long a listing may go on. -/
def run (py : Interpreter) (deleting : Int) (pages : Nat) (args : RunArgs) :
    CloudProgram (List RecordChange) := do
  let prefixes ← Program.ofExcept (checkArgs py args)
  let servers ← listServers pages args.folderId args.filter
  let (zoneId, zone) ← resolveZone py pages args.zoneId args.zone args.dnsFolder
  let inventory ← Program.ofExcept
    (registration (buildInventory py deleting servers prefixes zone))
  let records ← listARecords pages zoneId
  let existing ← Program.ofExcept (registration (indexARecords py records zone))
  let changes := planChanges py inventory.desired existing zone prefixes args.ttl
    (args.scope inventory)
  if changes = [] then return []
  if args.dryRun then return changes
  updateZoneBy zoneId changes
  return changes

end Programs

/-! ## The cloud -/

section Cloud

/-- The servers of a folder under a filter, the zones of a folder and by their
identifiers, the records of a zone, and whether the last update was carried out. -/
structure Cloud where
  servers : Str → Str → List Server
  zones : Str → List DnsZone
  zoneById : Str → Option DnsZone
  records : Str → List RecordSet
  carriedOut : Bool

/-- The filter `type="A"`. -/
def onlyA (records : List RecordSet) : List RecordSet :=
  records.filter fun r => decide (r.type = typeA)

/-- An update that is carried out. -/
def Cloud.update
    (s : Cloud) (zoneId : Str) (deletions additions : List RecordSet) : Cloud :=
  { s with
    records := Function.update s.records zoneId (updateZone (s.records zoneId) deletions additions)
    carriedOut := true }

/-- The answers of the cloud.  An update is carried out as a whole or not at all,
whatever becomes of its answer; it is over before anything else is asked. -/
inductive CloudAnswer (tokenAt : Nat → Str) : Environment cloudApi RunError Cloud
  | servers
      (s : Cloud) (folderId filter token : Str) (k : Nat) (answer : List Server × Str)
      (htoken : token = tokenAt k)
      (hpage : PageAt tokenAt (s.servers folderId filter) k answer.1 answer.2) :
      CloudAnswer tokenAt s (.listServers folderId filter token) (.ok answer) s
  | zone
      (s : Cloud) (zoneId : Str) (zone : DnsZone)
      (hzone : s.zoneById zoneId = some zone) :
      CloudAnswer tokenAt s (.getZone zoneId) (.ok zone) s
  | zones
      (s : Cloud) (folderId token : Str) (k : Nat) (answer : List DnsZone × Str)
      (htoken : token = tokenAt k)
      (hpage : PageAt tokenAt (s.zones folderId) k answer.1 answer.2) :
      CloudAnswer tokenAt s (.listZones folderId token) (.ok answer) s
  | records
      (s : Cloud) (zoneId token : Str) (k : Nat) (answer : List RecordSet × Str)
      (htoken : token = tokenAt k)
      (hpage : PageAt tokenAt (onlyA (s.records zoneId)) k answer.1 answer.2) :
      CloudAnswer tokenAt s (.listARecords zoneId token) (.ok answer) s
  | updated
      (s : Cloud) (zoneId : Str) (deletions additions : List RecordSet) :
      CloudAnswer tokenAt s (.updateRecordSets zoneId deletions additions) (.ok ())
        (s.update zoneId deletions additions)
  | rejected
      (s : Cloud) (zoneId : Str) (deletions additions : List RecordSet) :
      CloudAnswer tokenAt s (.updateRecordSets zoneId deletions additions) (.ok ())
        { s with carriedOut := false }
  | updateLost
      (s : Cloud) (zoneId : Str) (deletions additions : List RecordSet) (e : RunError) :
      CloudAnswer tokenAt s (.updateRecordSets zoneId deletions additions) (.error e)
        (s.update zoneId deletions additions)
  | waited
      (s : Cloud)
      (hcarried : s.carriedOut = true) :
      CloudAnswer tokenAt s .waitOperation (.ok ()) s
  | failed
      (s : Cloud) (op : CloudCall) (e : RunError) :
      CloudAnswer tokenAt s op (.error e) s

end Cloud

end Dns
end YdbSnippets
