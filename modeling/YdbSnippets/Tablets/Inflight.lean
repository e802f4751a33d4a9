import YdbSnippets.Lists.Matching
import YdbSnippets.Tablets.Paths
import YdbSnippets.Viewer.Pages

/-!
# Tablets of in-flight operations

`fetch_inflight_tablets` of `manage_tablets.py` finds the tablets of paths that
describe already hides: it reads all in-flight transactions, gathers the path
ids they name, and then reads the shards of every path.
-/

namespace YdbSnippets
namespace Tablets

open Python Text Viewer Matching

section Roles

/-- `[A-Za-z0-9]` -/
def isAsciiAlphanumeric (c : Char) : Bool :=
  c.isDigit || ('a' ≤ c && c ≤ 'z') || ('A' ≤ c && c ≤ 'Z')

/-- The upper case of an ASCII letter. -/
def asciiUpper (c : Char) : Char :=
  if 97 ≤ c.toNat ∧ c.toNat ≤ 122 then Char.ofNat (c.toNat - 32) else c

/-- `_TABLET_ROLE_BY_TYPE` -/
def tabletRoleByType : List (String × String) :=
  [("PERSQUEUE", "partition"), ("PERSQUEUEREADBALANCER", "balancer"),
    ("DATASHARD", "datashard"), ("COLUMNSHARD", "columnshard")]

/-- `role_for_tablet_type` -/
def roleForTabletType (typeName : Str) : Str :=
  let text := (typeName.filter isAsciiAlphanumeric).map asciiUpper
  match tabletRoleByType.find? fun entry => entry.1.toList == text with
  | some entry => entry.2.toList
  | none => if text = [] then "shard".toList else text.map asciiLower

/-- The index of a shard: its owner and its number there. -/
abbrev ShardIdx := Int × Int

/-- `_default_role` -/
def defaultRole (shardTypes : Dict ShardIdx Str) : Str :=
  let roles := shardTypes.values.map roleForTabletType
  match (roles.filter fun role => role != "shard".toList).eraseDups with
  | [role] => role
  | _ => "shard".toList

/-- `_role_for_shard` -/
def roleForShard
    (shard : Option ShardIdx) (shardTypes : Dict ShardIdx Str) (default : Str) : Str :=
  match shard.bind shardTypes.get? with
  | some typeName => if typeName = [] then default else roleForTabletType typeName
  | none => default

/-- A tablet that was found. -/
structure TabletRec where
  role : Str
  parts : List Int
deriving DecidableEq, Repr

abbrev TabletMap := Dict Int TabletRec

/-- The role of a tablet that is met again. -/
def mergedRole (old role : Str) : Str :=
  if role = "balancer".toList ∧ old ≠ "balancer".toList ∧
      endsWith old "+balancer".toList = false then
    old ++ "+balancer".toList
  else old

/-- `_add_tablet` -/
def addTablet
    (tablets : TabletMap) (tabletId : Option Int) (role : Str) (partId : Option Int) :
    TabletMap :=
  match tabletId with
  | none => tablets
  | some tabletId =>
      if tabletId = 0 then tablets
      else
        let found : TabletRec :=
          match tablets.get? tabletId with
          | none => ⟨role, []⟩
          | some found => { found with role := mergedRole found.role role }
        let parts :=
          match partId with
          | some partId =>
              if partId ∈ found.parts then found.parts else found.parts ++ [partId]
          | none => found.parts
        tablets.set tabletId { found with parts := parts }

/-- A shard on a page. -/
structure Shard where
  shard : Option ShardIdx
  tabletId : Int
deriving DecidableEq, Repr

/-- `_add_shard_tablets` -/
def addShardTablets
    (tablets : TabletMap) (shards : List Shard) (shardTypes : Dict ShardIdx Str) : TabletMap :=
  let default := defaultRole shardTypes
  shards.foldl
    (fun tablets shard =>
      addTablet tablets (some shard.tabletId) (roleForShard shard.shard shardTypes default) none)
    tablets

end Roles

section Parsing

variable (py : Interpreter) (html : HtmlLibrary)

/-- `_shard_idx_text` -/
def shardIdxText (text : Str) : Option ShardIdx := do
  let (left, right) ← partitionColon text
  let owner ← asInt py (some (strip left))
  let localIdx ← asInt py (some (strip right))
  return (owner, localIdx)

/-- `_shard_idx_from_href` -/
def shardIdxFromHref (href : Option Str) : Option ShardIdx :=
  match intParam py html href "OwnerShardIdx", intParam py html href "LocalShardIdx" with
  | some owner, some localIdx => some (owner, localIdx)
  | _, _ => shardIdxText py (html.unescape (href.getD []))

/-- `_tablet_id_from_href` -/
def tabletIdFromHref (href : Option Str) : Option Int :=
  if noTarget href then none
  else
    let text := html.unescape (href.getD [])
    let lowered := py.lower text
    let isHiveLink :=
      "tablets?".toList.isPrefixOf lowered || occurs "/tablets?".toList lowered
    if occurs "tablets/app".toList lowered || !isHiveLink then none
    else intParam py html (some text) "TabletID"

/-- The shard of a row whose second cell links to its tablet. -/
def shardOfRow : Row → Option Shard
  | idx :: tablet :: _ =>
      let shard := shardIdxFromHref py html idx.href <|> shardIdxText py idx.text
      let linked := (tabletIdFromHref py html tablet.href).filter fun id => id != 0
      let tabletId := (linked <|> asInt py (some tablet.text)).filter fun id => id != 0
      tabletId.map fun tabletId => ⟨shard, tabletId⟩
  | _ => none

/-- The entry of `shard_types` that a row of the Shards table makes. -/
def shardTypeOfRow : Row → Option (ShardIdx × Str)
  | idx :: typeName :: _ => do
      let shard ← shardIdxText py idx.text
      let typeName := strip typeName.text
      if typeName = [] then none else some (shard, typeName)
  | _ => none

/-- What `parse_tx_info` returns. -/
structure TxInfo where
  refs : List PathId
  shardTypes : Dict ShardIdx Str
  inProgress : List Shard
  status : TxStatus

/-- `SHARD_TYPE_HEADERS` -/
def shardTypeHeaders : List String :=
  ["shardid", "tablettype", "operation", "rangeend"]

/-- `INPROGRESS_HEADERS` -/
def inProgressHeaders : List String :=
  ["ownershardidx", "localshardidx", "tabletid"]

/-- `PATH_SHARD_HEADERS` -/
def pathShardHeaders : List String :=
  ["shardidx", "tableid", "isactive"]

/-- One table of a `Page=TxInfo`. -/
def readTxTable
    (found : Dict ShardIdx Str × List Shard) (table : Table) : Dict ShardIdx Str × List Shard :=
  if hasHeader py shardTypeHeaders table then
    (found.1.update ((dataRows 2 table).filterMap (shardTypeOfRow py)), found.2)
  else if hasHeader py inProgressHeaders table then
    (found.1, found.2 ++ (dataRows 2 table).filterMap (shardOfRow py html))
  else found

/-- `parse_tx_info` -/
def parseTxInfo (page : Str) : Except PageError TxInfo := do
  let links := pathLinks page
  let refs := (links.filterMap fun link => pathIdOfHref py html link.href).eraseDups
  let tables ← pageTables py html page
  let found := tables.foldl (readTxTable py html) (Dict.empty, [])
  if links = [] then return ⟨[], Dict.empty, [], statusWithoutLinks html page⟩
  else return ⟨refs, found.1, found.2, .ok⟩

/-- `parse_path_shards` -/
def parsePathShards (page : Str) : Except PageError (Str × List Shard) := do
  let path := pagePath html page
  let tables ← pageTables py html page
  match tables.find? (hasHeader py pathShardHeaders) with
  | some table => return (path, (dataRows 2 table).filterMap (shardOfRow py html))
  | none => return (path, [])

end Parsing

section Fetching

/-- What the requests of a run answer, after their retries.  A transaction is
asked for by its place in the list. -/
structure SchemeShardPages where
  schemeshardId : Except PyException Int
  txList : Except PyException Str
  txInfo : Nat → Except PyException Str
  pathInfo : PathId → Except PyException Str

/-- The answer to a request. -/
def answer {α : Type} (result : Except PyException α) : Except PageError α :=
  result.mapError .raised

/-- What is pending for a path id. -/
structure Slot where
  types : Dict ShardIdx Str
  backups : List (List Shard)
  txCount : Nat

def Slot.empty : Slot where
  types := Dict.empty
  backups := []
  txCount := 0

/-- The tablets that stand in for the shards of a path without any. -/
def TxInfo.backup (tx : TxInfo) : List Shard :=
  if tx.refs.length = 1 then tx.inProgress else []

/-- The change of the slot of a path id that the transaction names. -/
def Slot.add (slot : Slot) (tx : TxInfo) : Slot where
  types := slot.types.update tx.shardTypes.items
  backups := if tx.backup = [] then slot.backups else slot.backups ++ [tx.backup]
  txCount := slot.txCount + 1

abbrev Pending := Dict PathId Slot

/-- The effect of a transaction page. -/
def addTransaction (pending : Pending) (tx : TxInfo) : Pending :=
  if tx.status = .ok then
    tx.refs.foldl
      (fun pending key => pending.modifyDefault key Slot.empty fun slot => slot.add tx) pending
  else pending

/-- The tablets of the paths. -/
abbrev PathTablets := Dict Str TabletMap

variable (py : Interpreter) (html : HtmlLibrary) (pages : SchemeShardPages)

/-- The loop over the operations, from this place of the list on. -/
def readTransactions :
    Nat → List Operation → Pending → Except PageError Pending
  | _, [], pending => .ok pending
  | i, _ :: rest, pending => do
      let page ← answer (pages.txInfo i)
      let tx ← parseTxInfo py html page
      readTransactions (i + 1) rest (addTransaction pending tx)

/-- The tablets of a path whose page lists these shards. -/
def Slot.tablets (slot : Slot) (tablets : TabletMap) (shards : List Shard) : TabletMap :=
  if shards ≠ [] then addShardTablets tablets shards slot.types
  else
    match slot.txCount, slot.backups with
    | 1, [backup] => addShardTablets tablets backup slot.types
    | _, _ => tablets

/-- One path id of the second loop. -/
def readPath (byPath : PathTablets) (key : PathId) (slot : Slot) :
    Except PageError PathTablets := do
  let page ← answer (pages.pathInfo key)
  let (path, shards) ← parsePathShards py html page
  if path = [] then return byPath
  return byPath.modifyDefault (normalizePath path) Dict.empty fun tablets =>
    slot.tablets tablets shards

/-- The loop over the pending path ids. -/
def readPaths : List (PathId × Slot) → PathTablets → Except PageError PathTablets
  | [], byPath => .ok byPath
  | (key, slot) :: rest, byPath => do
      let byPath ← readPath py html pages byPath key slot
      readPaths rest byPath

/-- `fetch_inflight_tablets` -/
def fetchInflightTablets : Except PageError PathTablets := do
  let _ ← answer pages.schemeshardId
  let page ← answer pages.txList
  let operations ← parseTxList py html page
  let pending ← readTransactions py html pages 0 operations Dict.empty
  readPaths py html pages pending.items Dict.empty

end Fetching

section Recorded

variable {py : Interpreter} {html : HtmlLibrary}

/-- A tablet is added under its id, and no other tablet is. -/
theorem mem_keys_addTablet
    {tablets : TabletMap} {tabletId t : Int} {role : Str} {partId : Option Int} :
    t ∈ (addTablet tablets (some tabletId) role partId).keys ↔
      (t = tabletId ∧ tabletId ≠ 0) ∨ t ∈ tablets.keys := by
  by_cases hzero : tabletId = 0
  · simp [addTablet, hzero]
  · simp [addTablet, hzero]

theorem mem_keys_addShardTablets
    {tablets : TabletMap} {shards : List Shard} {types : Dict ShardIdx Str} {t : Int} :
    t ∈ (addShardTablets tablets shards types).keys ↔
      t ∈ tablets.keys ∨ t ≠ 0 ∧ t ∈ shards.map Shard.tabletId := by
  unfold addShardTablets
  generalize defaultRole types = default
  induction shards generalizing tablets with
  | nil => simp
  | cons shard rest ih =>
      rw [List.foldl_cons, ih, mem_keys_addTablet, List.map_cons, List.mem_cons]
      by_cases ht : t = shard.tabletId
      · subst ht
        tauto
      · simp [ht]

/-- No shard of a page has the tablet id 0. -/
theorem shardOfRow_ne_zero
    {row : Row} {shard : Shard}
    (h : shardOfRow py html row = some shard) :
    shard.tabletId ≠ 0 := by
  unfold shardOfRow at h
  split at h
  · obtain ⟨tabletId, hid, rfl⟩ := Option.map_eq_some_iff.mp h
    simpa using (Option.filter_eq_some_iff.mp hid).2
  · cases h

theorem parsePathShards_ne_zero
    {page path : Str} {shards : List Shard}
    (h : parsePathShards py html page = .ok (path, shards)) :
    ∀ shard ∈ shards, shard.tabletId ≠ 0 := by
  obtain ⟨tables, _, h⟩ := bind_ok_iff.mp h
  split at h
  · cases h
    intro shard hshard
    obtain ⟨row, _, hrow⟩ := List.mem_filterMap.mp hshard
    exact shardOfRow_ne_zero hrow
  · cases h
    simp

/-- What a path id contributes: its shards, or the tablets that stand in for
them. -/
theorem mem_keys_slot_tablets
    {slot : Slot} {tablets : TabletMap} {shards : List Shard} {t : Int}
    (h : t ∈ (slot.tablets tablets shards).keys) :
    t ∈ tablets.keys ∨ t ∈ shards.map Shard.tabletId ∨
      shards = [] ∧ slot.txCount = 1 ∧
        ∃ backup, slot.backups = [backup] ∧ t ∈ backup.map Shard.tabletId := by
  unfold Slot.tablets at h
  split at h
  · rcases mem_keys_addShardTablets.mp h with h | ⟨_, h⟩
    · exact Or.inl h
    · exact Or.inr (Or.inl h)
  · next hshards =>
      split at h
      · next backup hcount hbackups =>
          rcases mem_keys_addShardTablets.mp h with h | ⟨_, h⟩
          · exact Or.inl h
          · exact Or.inr (Or.inr ⟨not_not.mp hshards, hcount, backup, hbackups, h⟩)
      · exact Or.inl h

theorem mem_keys_slot_tablets_of_mem
    {slot : Slot} {tablets : TabletMap} {shards : List Shard} {t : Int}
    (h : t ∈ tablets.keys ∨ t ≠ 0 ∧ t ∈ shards.map Shard.tabletId) :
    t ∈ (slot.tablets tablets shards).keys := by
  unfold Slot.tablets
  split
  · exact mem_keys_addShardTablets.mpr h
  · next hshards =>
      rw [not_not.mp hshards] at h
      have ht : t ∈ tablets.keys := h.resolve_right (by simp)
      split
      · exact mem_keys_addShardTablets.mpr (Or.inl ht)
      · exact ht

end Recorded

section Transactions

variable {py : Interpreter} {html : HtmlLibrary} {pages : SchemeShardPages}

theorem answer_ok_iff
    {α : Type} {result : Except PyException α} {a : α} :
    answer result = .ok a ↔ result = .ok a := by
  cases result with
  | error exc => exact ⟨nofun, nofun⟩
  | ok b => exact ⟨fun h => congrArg _ (Except.ok.inj h), fun h => congrArg _ (Except.ok.inj h)⟩

/-- The page of the transaction at this place of the list reads as `tx`. -/
def TxPage
    (py : Interpreter) (html : HtmlLibrary) (pages : SchemeShardPages) (i : Nat) (tx : TxInfo) :
    Prop :=
  ∃ page, pages.txInfo i = .ok page ∧ parseTxInfo py html page = .ok tx

/-- The transactions that name a path id. -/
def naming (key : PathId) (txs : List TxInfo) : List TxInfo :=
  txs.filter fun tx => decide (tx.status = .ok ∧ key ∈ tx.refs)

/-- A transaction names a path id once. -/
theorem parseTxInfo_nodup
    {page : Str} {tx : TxInfo}
    (h : parseTxInfo py html page = .ok tx) :
    tx.refs.Nodup := by
  obtain ⟨tables, _, h⟩ := bind_ok_iff.mp h
  split at h
  · cases h
    exact List.nodup_nil
  · cases h
    exact nodup_eraseDups _

/-- One transaction changes the slots of the path ids it names. -/
theorem get?_addTransaction
    (pending : Pending) {tx : TxInfo} (key : PathId)
    (hrefs : tx.refs.Nodup) :
    (addTransaction pending tx).get? key =
      if tx.status = .ok ∧ key ∈ tx.refs then
        some ((pending.getD key Slot.empty).add tx)
      else pending.get? key := by
  unfold addTransaction
  by_cases hstatus : tx.status = .ok
  · rw [if_pos hstatus, Dict.get?_foldl_modifyDefault _ _ _ _ hrefs]
    simp [hstatus]
  · simp [hstatus]

/-- The slot of a path id gathers the transactions that name it, in order. -/
theorem getD_pending
    {txs : List TxInfo} (key : PathId)
    (hrefs : ∀ tx ∈ txs, tx.refs.Nodup) :
    ((txs.foldl addTransaction Dict.empty).get? key = none ↔ naming key txs = []) ∧
      (txs.foldl addTransaction Dict.empty).getD key Slot.empty =
        (naming key txs).foldl Slot.add Slot.empty := by
  induction txs using List.reverseRecOn with
  | nil => exact ⟨iff_of_true rfl rfl, rfl⟩
  | append_singleton txs tx ih =>
      obtain ⟨ihNone, ihSlot⟩ := ih fun t ht => hrefs t (List.mem_append_left _ ht)
      have hget := get?_addTransaction (txs.foldl addTransaction Dict.empty) key
        (hrefs tx (by simp))
      have hnaming : naming key (txs ++ [tx]) =
          naming key txs ++ if tx.status = .ok ∧ key ∈ tx.refs then [tx] else [] := by
        rw [naming, List.filter_append, List.filter_cons]
        simp [naming]
      rw [List.foldl_append, List.foldl_cons, List.foldl_nil]
      rw [hnaming]
      unfold Dict.getD at ihSlot ⊢
      by_cases hnames : tx.status = .ok ∧ key ∈ tx.refs
      · rw [if_pos hnames] at hget
        rw [if_pos hnames, hget]
        refine ⟨by simp, ?_⟩
        rw [List.foldl_append, ← ihSlot]
        rfl
      · rw [if_neg hnames] at hget
        rw [if_neg hnames, hget, List.append_nil]
        exact ⟨ihNone, ihSlot⟩

/-- The slot counts its transactions and keeps their backups. -/
theorem foldl_slot_add
    (txs : List TxInfo) :
    (txs.foldl Slot.add Slot.empty).txCount = txs.length ∧
      (txs.foldl Slot.add Slot.empty).backups =
        (txs.map TxInfo.backup).filter fun backup => backup ≠ [] := by
  induction txs using List.reverseRecOn with
  | nil => exact ⟨rfl, rfl⟩
  | append_singleton txs tx ih =>
      rw [List.foldl_append, List.foldl_cons, List.foldl_nil]
      refine ⟨by simp [Slot.add, ih.1], ?_⟩
      by_cases hbackup : tx.backup = []
      · simp [Slot.add, ih.2, hbackup]
      · simp [Slot.add, ih.2, hbackup]

/-- The transactions are read in the order of the list. -/
theorem readTransactions_ok
    {i : Nat} {operations : List Operation} {pending final : Pending}
    (h : readTransactions py html pages i operations pending = .ok final) :
    ∃ txs : List TxInfo, txs.length = operations.length ∧
      (∀ j tx, txs[j]? = some tx → TxPage py html pages (i + j) tx) ∧
      final = txs.foldl addTransaction pending := by
  induction operations generalizing i pending with
  | nil =>
      cases h
      exact ⟨[], rfl, by simp, rfl⟩
  | cons operation rest ih =>
      obtain ⟨page, hpage, h⟩ := bind_ok_iff.mp h
      obtain ⟨tx, htx, h⟩ := bind_ok_iff.mp h
      obtain ⟨txs, hlength, hread, hfinal⟩ := ih h
      refine ⟨tx :: txs, by simp [hlength], ?_, by rw [hfinal, List.foldl_cons]⟩
      intro j t hj
      cases j with
      | zero =>
          cases hj
          exact ⟨page, answer_ok_iff.mp hpage, htx⟩
      | succ j =>
          rw [List.getElem?_cons_succ] at hj
          have hread := hread j t hj
          rwa [Nat.add_right_comm] at hread

end Transactions

section Paths

variable {py : Interpreter} {html : HtmlLibrary} {pages : SchemeShardPages}

/-- The page of the path id reads as this path with these shards. -/
def PathPage
    (py : Interpreter) (html : HtmlLibrary) (pages : SchemeShardPages) (key : PathId)
    (path : Str) (shards : List Shard) : Prop :=
  ∃ page, pages.pathInfo key = .ok page ∧ parsePathShards py html page = .ok (path, shards)

theorem PathPage.unique
    {key : PathId} {path path' : Str} {shards shards' : List Shard}
    (h : PathPage py html pages key path shards)
    (h' : PathPage py html pages key path' shards') :
    path = path' ∧ shards = shards' := by
  obtain ⟨page, hpage, hread⟩ := h
  obtain ⟨page', hpage', hread'⟩ := h'
  obtain rfl := Except.ok.inj (hpage.symm.trans hpage')
  exact Prod.mk.inj (Except.ok.inj (hread.symm.trans hread'))

/-- All that reading a path id can do. -/
theorem readPath_cases
    {byPath byPath' : PathTablets} {key : PathId} {slot : Slot}
    (h : readPath py html pages byPath key slot = .ok byPath') :
    ∃ path shards, PathPage py html pages key path shards ∧
      ((path = [] ∧ byPath' = byPath) ∨
        (path ≠ [] ∧ byPath' = byPath.modifyDefault (normalizePath path) Dict.empty
          fun tablets => slot.tablets tablets shards)) := by
  obtain ⟨page, hpage, h⟩ := bind_ok_iff.mp h
  obtain ⟨⟨path, shards⟩, hread, h⟩ := bind_ok_iff.mp h
  refine ⟨path, shards, ⟨page, answer_ok_iff.mp hpage, hread⟩, ?_⟩
  by_cases hpath : path = []
  · simp only [if_pos hpath] at h
    exact Or.inl ⟨hpath, (Except.ok.inj h).symm⟩
  · simp only [if_neg hpath] at h
    exact Or.inr ⟨hpath, (Except.ok.inj h).symm⟩

/-- What every path id preserves holds of the result. -/
theorem readPaths_induct
    {motive : PathTablets → Prop} {items : List (PathId × Slot)}
    {byPath final : PathTablets}
    (h : readPaths py html pages items byPath = .ok final)
    (hstart : motive byPath)
    (hstep : ∀ key slot, (key, slot) ∈ items → ∀ before after, motive before →
      readPath py html pages before key slot = .ok after → motive after) :
    motive final := by
  induction items generalizing byPath with
  | nil => exact Except.ok.inj h ▸ hstart
  | cons item rest ih =>
      obtain ⟨key, slot⟩ := item
      obtain ⟨next, hnext, h⟩ := bind_ok_iff.mp h
      refine ih h (hstep key slot List.mem_cons_self byPath next hstart hnext) ?_
      exact fun key slot hmem => hstep key slot (List.mem_cons_of_mem _ hmem)

/-- A tablet is recorded under the path. -/
def Recorded (byPath : PathTablets) (path : Str) (tablet : Int) : Prop :=
  ∃ tablets, byPath.get? path = some tablets ∧ tablet ∈ tablets.keys

/-- What is recorded stays recorded. -/
theorem Recorded.readPath
    {byPath byPath' : PathTablets} {key : PathId} {slot : Slot} {path : Str} {tablet : Int}
    (hrecorded : Recorded byPath path tablet)
    (h : readPath py html pages byPath key slot = .ok byPath') :
    Recorded byPath' path tablet := by
  obtain ⟨tablets, hget, hmem⟩ := hrecorded
  obtain ⟨raw, shards, _, ⟨_, rfl⟩ | ⟨_, rfl⟩⟩ := readPath_cases h
  · exact ⟨tablets, hget, hmem⟩
  · by_cases hpath : path = normalizePath raw
    · refine ⟨slot.tablets tablets shards, ?_, mem_keys_slot_tablets_of_mem (Or.inl hmem)⟩
      simp [← hpath, Dict.getD, hget]
    · exact ⟨tablets, by simp [hpath, hget], hmem⟩

/-- All shards of a path id are recorded under its path. -/
theorem recorded_of_mem
    {items : List (PathId × Slot)} {byPath final : PathTablets}
    {key : PathId} {slot : Slot} {path : Str} {shards : List Shard}
    (h : readPaths py html pages items byPath = .ok final)
    (hitem : (key, slot) ∈ items)
    (hpage : PathPage py html pages key path shards) (hpath : path ≠ []) :
    ∀ shard ∈ shards, Recorded final (normalizePath path) shard.tabletId := by
  induction items generalizing byPath with
  | nil => cases hitem
  | cons item rest ih =>
      obtain ⟨key', slot'⟩ := item
      obtain ⟨next, hnext, hrest⟩ := bind_ok_iff.mp h
      rcases List.mem_cons.mp hitem with heq | hitem
      · cases heq
        intro shard hshard
        have hrecorded : Recorded next (normalizePath path) shard.tabletId := by
          obtain ⟨path', shards', hpage', hcases⟩ := readPath_cases hnext
          obtain ⟨rfl, rfl⟩ := hpage.unique hpage'
          rcases hcases with ⟨hnil, -⟩ | ⟨-, rfl⟩
          · exact absurd hnil hpath
          · refine ⟨slot.tablets (byPath.getD (normalizePath path) Dict.empty) shards, by simp, ?_⟩
            refine mem_keys_slot_tablets_of_mem (Or.inr ⟨?_, List.mem_map_of_mem hshard⟩)
            obtain ⟨page, _, hread⟩ := hpage
            exact parsePathShards_ne_zero hread shard hshard
        refine readPaths_induct
          (motive := fun byPath => Recorded byPath (normalizePath path) shard.tabletId)
          hrest hrecorded ?_
        exact fun _ _ _ _ _ hbefore hread => hbefore.readPath hread
      · exact ih hrest hitem

/-- Where a recorded tablet comes from: a pending path id whose page resolves to
the path. -/
theorem source_of_recorded
    {items : List (PathId × Slot)} {final : PathTablets} {path : Str} {tablet : Int}
    (h : readPaths py html pages items Dict.empty = .ok final)
    (hrecorded : Recorded final path tablet) :
    ∃ key slot raw shards, (key, slot) ∈ items ∧ PathPage py html pages key raw shards ∧
      raw ≠ [] ∧ normalizePath raw = path ∧
      (tablet ∈ shards.map Shard.tabletId ∨
        shards = [] ∧ slot.txCount = 1 ∧
          ∃ backup, slot.backups = [backup] ∧ tablet ∈ backup.map Shard.tabletId) := by
  refine readPaths_induct (motive := fun byPath => Recorded byPath path tablet → _) h ?_ ?_
    hrecorded
  · rintro ⟨tablets, hget, -⟩
    cases hget
  · intro key slot hitem before after hbefore hread hafter
    obtain ⟨raw, shards, hpage, ⟨_, rfl⟩ | ⟨hraw, rfl⟩⟩ := readPath_cases hread
    · exact hbefore hafter
    · obtain ⟨tablets, hget, hmem⟩ := hafter
      by_cases hpath : path = normalizePath raw
      · rw [Dict.get?_modifyDefault, if_pos hpath] at hget
        cases hget
        rcases mem_keys_slot_tablets hmem with hold | hnew
        · refine hbefore ?_
          unfold Dict.getD at hold
          cases hold' : before.get? (normalizePath raw) with
          | none =>
              rw [hold'] at hold
              cases hold
          | some old =>
              rw [hold'] at hold
              exact ⟨old, hpath ▸ hold', hold⟩
        · exact ⟨key, slot, raw, shards, hitem, hpage, hraw, hpath.symm, hnew⟩
      · rw [Dict.get?_modifyDefault, if_neg hpath] at hget
        exact hbefore ⟨tablets, hget, hmem⟩

end Paths

section Attribution

variable {py : Interpreter} {html : HtmlLibrary} {pages : SchemeShardPages}

/-- The transaction at this place of the list was accepted, and its page reads as
`tx`. -/
def Accepted
    (py : Interpreter) (html : HtmlLibrary) (pages : SchemeShardPages)
    (operations : List Operation) (i : Nat) (tx : TxInfo) : Prop :=
  i < operations.length ∧ TxPage py html pages i tx ∧ tx.status = .ok

/-- The page of the path id has a path, and this is its normal form. -/
def Resolves
    (py : Interpreter) (html : HtmlLibrary) (pages : SchemeShardPages) (key : PathId)
    (path : Str) (shards : List Shard) : Prop :=
  ∃ raw, PathPage py html pages key raw shards ∧ raw ≠ [] ∧ normalizePath raw = path

/-- A transaction that stands in the list of those read was accepted. -/
theorem accepted_iff
    (i : Nat) (tx : TxInfo) {operations : List Operation} {txs : List TxInfo}
    (hlength : txs.length = operations.length)
    (hread : ∀ j tx, txs[j]? = some tx → TxPage py html pages j tx) :
    Accepted py html pages operations i tx ↔ txs[i]? = some tx ∧ tx.status = .ok := by
  constructor
  · rintro ⟨hi, ⟨page, hpage, htx⟩, hstatus⟩
    refine ⟨?_, hstatus⟩
    obtain ⟨page', hpage', htx'⟩ :=
      hread i _ (List.getElem?_eq_getElem (hlength ▸ hi))
    obtain rfl := Except.ok.inj (hpage.symm.trans hpage')
    rw [List.getElem?_eq_getElem (hlength ▸ hi), Except.ok.inj (htx.symm.trans htx')]
  · rintro ⟨hi, hstatus⟩
    obtain ⟨hlt, -⟩ := List.getElem?_eq_some_iff.mp hi
    exact ⟨hlength ▸ hlt, hread i tx hi, hstatus⟩

/-- A path id whose slot has one transaction and one backup was named by that
transaction alone, and the transaction names no other path id. -/
theorem sole_transaction
    {txs : List TxInfo} {key : PathId} {slot : Slot} {backup : List Shard}
    (hslot : slot = (naming key txs).foldl Slot.add Slot.empty)
    (hcount : slot.txCount = 1) (hbackups : slot.backups = [backup]) :
    ∃ tx, naming key txs = [tx] ∧ tx.refs = [key] ∧ backup = tx.inProgress := by
  obtain ⟨hlength, hkept⟩ := foldl_slot_add (naming key txs)
  rw [← hslot, hcount] at hlength
  rw [← hslot, hbackups] at hkept
  obtain ⟨tx, htx⟩ := List.length_eq_one_iff.mp hlength.symm
  rw [htx, List.map_cons, List.map_nil, List.filter_singleton] at hkept
  have hmem : tx ∈ naming key txs := by rw [htx]; exact List.mem_singleton.mpr rfl
  obtain ⟨-, -, hnamed⟩ : tx ∈ txs ∧ tx.status = .ok ∧ key ∈ tx.refs := by
    simpa [naming] using hmem
  by_cases hnone : tx.backup = []
  · simp [hnone] at hkept
  · obtain rfl : backup = tx.backup := by simpa [hnone] using hkept
    unfold TxInfo.backup at hnone ⊢
    split at hnone
    · next hone =>
        obtain ⟨only, honly⟩ := List.length_eq_one_iff.mp hone
        rw [honly, List.mem_singleton] at hnamed
        exact ⟨tx, htx, by rw [honly, hnamed], if_pos hone⟩
    · exact absurd rfl hnone

/-- Every tablet recorded under a path is a shard on the page of a path id of an
accepted transaction, and that page resolves to the path; or the page lists no
shards, and the tablet is in progress in the only accepted transaction that
names the path id, which names nothing else.  Every path id of an accepted
transaction contributes all of its shards. -/
theorem inflight_tablets_attributed
    (py : Interpreter)
    (html : HtmlLibrary)
    (pages : SchemeShardPages)
    {listPage : Str}
    {operations : List Operation}
    {byPath : PathTablets}
    (hlist : pages.txList = .ok listPage)
    (hoperations : parseTxList py html listPage = .ok operations)
    (hfetch : fetchInflightTablets py html pages = .ok byPath) :
    (∀ path tablet, Recorded byPath path tablet →
      (∃ i tx key shards,
        Accepted py html pages operations i tx ∧ key ∈ tx.refs ∧
        Resolves py html pages key path shards ∧
        tablet ∈ shards.map Shard.tabletId) ∨
      (∃ i tx key,
        Accepted py html pages operations i tx ∧ tx.refs = [key] ∧
        Resolves py html pages key path [] ∧
        tablet ∈ tx.inProgress.map Shard.tabletId ∧
        ∀ j other, Accepted py html pages operations j other → key ∈ other.refs → j = i)) ∧
    (∀ i tx key path shards,
      Accepted py html pages operations i tx → key ∈ tx.refs →
      Resolves py html pages key path shards →
      ∀ shard ∈ shards, Recorded byPath path shard.tabletId) := by
  obtain ⟨_, _, hfetch⟩ := bind_ok_iff.mp hfetch
  obtain ⟨page, hpage, hfetch⟩ := bind_ok_iff.mp hfetch
  obtain rfl := Except.ok.inj ((answer_ok_iff.mp hpage).symm.trans hlist)
  obtain ⟨operations', hoperations', hfetch⟩ := bind_ok_iff.mp hfetch
  obtain rfl := Except.ok.inj (hoperations'.symm.trans hoperations)
  obtain ⟨pending, hpending, hfetch⟩ := bind_ok_iff.mp hfetch
  obtain ⟨txs, hlength, hread, rfl⟩ := readTransactions_ok hpending
  simp only [Nat.zero_add] at hread
  have haccepted := fun i tx =>
    accepted_iff i tx hlength hread
  have hrefs : ∀ tx ∈ txs, tx.refs.Nodup := by
    intro tx htx
    obtain ⟨i, hi⟩ := List.mem_iff_getElem?.mp htx
    obtain ⟨_, _, hparsed⟩ := hread i tx hi
    exact parseTxInfo_nodup hparsed
  have hnames : ∀ key tx, tx ∈ naming key txs ↔ tx ∈ txs ∧ tx.status = .ok ∧ key ∈ tx.refs := by
    intro key tx
    simp [naming]
  constructor
  · intro path tablet hrecorded
    obtain ⟨key, slot, raw, shards, hitem, hpath, hraw, hnormal, hcases⟩ :=
      source_of_recorded hfetch hrecorded
    obtain ⟨hnone, hslot⟩ := getD_pending key hrefs
    have hget := Dict.mem_items_iff.mp hitem
    rw [Dict.getD, hget, Option.getD_some] at hslot
    rcases hcases with hlisted | ⟨rfl, hcount, backup, hbackups, hbackup⟩
    · left
      have hne : naming key txs ≠ [] := by
        intro hnil
        rw [hnone.mpr hnil] at hget
        cases hget
      obtain ⟨tx, htx⟩ := List.exists_mem_of_ne_nil _ hne
      obtain ⟨hmem, hstatus, hnamed⟩ := (hnames key tx).mp htx
      obtain ⟨i, hi⟩ := List.mem_iff_getElem?.mp hmem
      exact ⟨i, tx, key, shards, (haccepted i tx).mpr ⟨hi, hstatus⟩, hnamed,
        ⟨raw, hpath, hraw, hnormal⟩, hlisted⟩
    · right
      obtain ⟨tx, hsole, honly, rfl⟩ := sole_transaction hslot hcount hbackups
      obtain ⟨hmem, hstatus, hnamed⟩ := (hnames key tx).mp (by rw [hsole]; simp)
      obtain ⟨i, hi⟩ := List.mem_iff_getElem?.mp hmem
      refine ⟨i, tx, key, (haccepted i tx).mpr ⟨hi, hstatus⟩, honly,
        ⟨raw, hpath, hraw, hnormal⟩, hbackup, ?_⟩
      intro j other hother hothernamed
      obtain ⟨hj, hotherStatus⟩ := (haccepted j other).mp hother
      exact index_unique_of_filter_eq_singleton hsole hj (by simp [hotherStatus, hothernamed])
        hi (by simp [hstatus, hnamed])
  · rintro i tx key path shards hacc hnamed ⟨raw, hpath, hraw, rfl⟩
    obtain ⟨hi, hstatus⟩ := (haccepted i tx).mp hacc
    have hmem : tx ∈ naming key txs :=
      (hnames key tx).mpr ⟨List.mem_of_getElem? hi, hstatus, hnamed⟩
    obtain ⟨hnone, -⟩ := getD_pending key hrefs
    cases hslot : (txs.foldl addTransaction Dict.empty).get? key with
    | none =>
        rw [hnone.mp hslot] at hmem
        cases hmem
    | some slot => exact recorded_of_mem hfetch (Dict.mem_items_iff.mpr hslot) hpath hraw

/-- A list of two transactions. -/
def listText : Str :=
  "<table><tr><th>OpId</th><th>Type</th><th>State</th>".toList ++
    "<th>Shards in progress</th></tr>".toList ++
    "<tr><td>7:0</td><td>Drop</td><td>Wait</td><td>1</td></tr>".toList ++
    "<tr><td>8:0</td><td>Split</td><td>Wait</td><td>1</td></tr></table>".toList

def dropText : Str :=
  "TargetPathId: <a href=\"?OwnerPathId=1&LocalPathId=2\">".toList

def splitText : Str :=
  "TargetPathId: <a href=\"?OwnerPathId=1&LocalPathId=3\">".toList ++
    "<table><tr><th>OwnerShardIdx</th><th>LocalShardIdx</th><th>TabletId</th></tr>".toList ++
    "<tr><td>1:6</td><td>99</td></tr></table>".toList

/-- The page of a table with two shards. -/
def droppedText : Str :=
  "<pre>Path: /db/t\n".toList ++
    "<table><tr><th>ShardIdx</th><th>TableId</th><th>IsActive</th></tr>".toList ++
    "<tr><td>1:5</td><td>77</td><td>1</td></tr>".toList ++
    "<tr><td>1:7</td><td>78</td><td>1</td></tr></table>".toList

/-- The page of a table without shards. -/
def shardlessText : Str :=
  "<pre>Path: /db/s\n".toList

/-- The pages of two transactions: one drops a table with two shards, the other one splits
a table whose page lists none. -/
def dropPages : SchemeShardPages where
  schemeshardId := .ok 1
  txList := .ok listText
  txInfo i := if i = 0 then .ok dropText else .ok splitText
  pathInfo key := if key.localId = 2 then .ok droppedText else .ok shardlessText

theorem parseTxList_listText :
    ∃ first second, parseTxList asciiInterpreter plainHtml listText = .ok [first, second] := by
  have hany : (parseTxList asciiInterpreter plainHtml listText).toOption.any
      (fun operations => decide (operations.length = 2)) = true := by
    unfold listText
    rw [String.toList_ofList, String.toList_ofList, String.toList_ofList, String.toList_ofList]
    decide +kernel
  obtain ⟨operations, hparse, hlength⟩ := exists_of_any hany
  obtain ⟨first, second, rfl⟩ := List.length_eq_two.mp (of_decide_eq_true hlength)
  exact ⟨first, second, hparse⟩

theorem parseTxInfo_dropText :
    parseTxInfo asciiInterpreter plainHtml dropText = .ok ⟨[⟨1, 2⟩], Dict.empty, [], .ok⟩ := by
  have hany : (parseTxInfo asciiInterpreter plainHtml dropText).toOption.any (fun tx => decide
      (tx.refs = [⟨1, 2⟩] ∧ tx.shardTypes.items = [] ∧ tx.inProgress = [] ∧ tx.status = .ok)) =
        true := by
    unfold dropText
    rw [String.toList_ofList]
    decide +kernel
  obtain ⟨⟨refs, ⟨items, nodup⟩, inProgress, status⟩, hparse, htx⟩ := exists_of_any hany
  obtain ⟨rfl, rfl, rfl, rfl⟩ := of_decide_eq_true htx
  exact hparse

theorem parseTxInfo_splitText :
    parseTxInfo asciiInterpreter plainHtml splitText =
      .ok ⟨[⟨1, 3⟩], Dict.empty, [⟨some (1, 6), 99⟩], .ok⟩ := by
  have hany : (parseTxInfo asciiInterpreter plainHtml splitText).toOption.any (fun tx => decide
      (tx.refs = [⟨1, 3⟩] ∧ tx.shardTypes.items = [] ∧
        tx.inProgress = [⟨some (1, 6), 99⟩] ∧ tx.status = .ok)) = true := by
    unfold splitText
    rw [String.toList_ofList, String.toList_ofList, String.toList_ofList]
    decide +kernel
  obtain ⟨⟨refs, ⟨items, nodup⟩, inProgress, status⟩, hparse, htx⟩ := exists_of_any hany
  obtain ⟨rfl, rfl, rfl, rfl⟩ := of_decide_eq_true htx
  exact hparse

theorem parsePathShards_droppedText :
    parsePathShards asciiInterpreter plainHtml droppedText =
      .ok (['/', 'd', 'b', '/', 't'], [⟨some (1, 5), 77⟩, ⟨some (1, 7), 78⟩]) := by
  have hany : (parsePathShards asciiInterpreter plainHtml droppedText).toOption.any
      (fun found => decide (found =
        (['/', 'd', 'b', '/', 't'], [⟨some (1, 5), 77⟩, ⟨some (1, 7), 78⟩]))) = true := by
    unfold droppedText
    rw [String.toList_ofList, String.toList_ofList, String.toList_ofList, String.toList_ofList]
    decide +kernel
  obtain ⟨found, hparse, hfound⟩ := exists_of_any hany
  rw [hparse, of_decide_eq_true hfound]

theorem parsePathShards_shardlessText :
    parsePathShards asciiInterpreter plainHtml shardlessText =
      .ok (['/', 'd', 'b', '/', 's'], []) := by
  have hany : (parsePathShards asciiInterpreter plainHtml shardlessText).toOption.any
      (fun found => decide (found = (['/', 'd', 'b', '/', 's'], []))) = true := by
    unfold shardlessText
    rw [String.toList_ofList]
    decide +kernel
  obtain ⟨found, hparse, hfound⟩ := exists_of_any hany
  rw [hparse, of_decide_eq_true hfound]

theorem readTransactions_cons
    {i : Nat} {operation : Operation} {rest : List Operation} {pending : Pending}
    {page : Str} {tx : TxInfo}
    (hpage : answer (pages.txInfo i) = .ok page)
    (htx : parseTxInfo py html page = .ok tx) :
    readTransactions py html pages i (operation :: rest) pending =
      readTransactions py html pages (i + 1) rest (addTransaction pending tx) := by
  simp only [readTransactions, hpage, htx, bind, Except.bind]

theorem readPaths_cons
    {key : PathId} {slot : Slot} {rest : List (PathId × Slot)} {byPath : PathTablets}
    {page path : Str} {shards : List Shard}
    (hpage : answer (pages.pathInfo key) = .ok page)
    (hparse : parsePathShards py html page = .ok (path, shards))
    (hpath : path ≠ []) :
    readPaths py html pages ((key, slot) :: rest) byPath =
      readPaths py html pages rest
        (byPath.modifyDefault (normalizePath path) Dict.empty fun tablets =>
          slot.tablets tablets shards) := by
  simp only [readPaths, readPath, hpage, hparse, if_neg hpath, bind, Except.bind, pure,
    Except.pure]

theorem fetchInflightTablets_eq
    {schemeshardId : Int} {page : Str} {operations : List Operation} {pending : Pending}
    (hid : answer pages.schemeshardId = .ok schemeshardId)
    (hpage : answer pages.txList = .ok page)
    (hoperations : parseTxList py html page = .ok operations)
    (hpending : readTransactions py html pages 0 operations Dict.empty = .ok pending) :
    fetchInflightTablets py html pages =
      readPaths py html pages pending.items Dict.empty := by
  simp only [fetchInflightTablets, hid, hpage, hoperations, hpending, bind, Except.bind]

/-- The tablets of the two tables, one from the page of the other transaction. -/
theorem fetchInflightTablets_dropPages :
    ∃ byPath, fetchInflightTablets asciiInterpreter plainHtml dropPages = .ok byPath ∧
      byPath.items.map (fun item => (item.1, item.2.keys)) =
        [(['/', 'd', 'b', '/', 't'], [77, 78]), (['/', 'd', 'b', '/', 's'], [99])] := by
  obtain ⟨first, second, hlist⟩ := parseTxList_listText
  have hdrop : answer (dropPages.txInfo 0) = .ok dropText := rfl
  have hsplit : answer (dropPages.txInfo 1) = .ok splitText := rfl
  have hdropped : answer (dropPages.pathInfo ⟨1, 2⟩) = .ok droppedText := rfl
  have hshardless : answer (dropPages.pathInfo ⟨1, 3⟩) = .ok shardlessText := rfl
  have hpending : readTransactions asciiInterpreter plainHtml dropPages 0 [first, second]
      Dict.empty = .ok (addTransaction (addTransaction Dict.empty
        ⟨[⟨1, 2⟩], Dict.empty, [], .ok⟩)
        ⟨[⟨1, 3⟩], Dict.empty, [⟨some (1, 6), 99⟩], .ok⟩) := by
    rw [readTransactions_cons hdrop parseTxInfo_dropText,
      readTransactions_cons hsplit parseTxInfo_splitText, readTransactions]
  have hitems : (addTransaction (addTransaction Dict.empty
      ⟨[⟨1, 2⟩], Dict.empty, [], .ok⟩)
      ⟨[⟨1, 3⟩], Dict.empty, [⟨some (1, 6), 99⟩], .ok⟩).items =
      [(⟨1, 2⟩, ⟨Dict.empty, [], 1⟩),
        (⟨1, 3⟩, ⟨Dict.empty, [[⟨some (1, 6), 99⟩]], 1⟩)] := rfl
  rw [fetchInflightTablets_eq rfl rfl hlist hpending, hitems,
    readPaths_cons hdropped parsePathShards_droppedText (by decide),
    readPaths_cons hshardless parsePathShards_shardlessText (by decide), readPaths]
  exact ⟨_, rfl, by decide +kernel⟩

theorem inflight_tablets_attributed_drop :
    ∃ operations byPath,
      parseTxList asciiInterpreter plainHtml (dropPages.txList.toOption.getD []) =
        .ok operations ∧
      fetchInflightTablets asciiInterpreter plainHtml dropPages = .ok byPath ∧
      byPath.items.map (fun item => (item.1, item.2.keys)) =
        [("/db/t".toList, [77, 78]), ("/db/s".toList, [99])] ∧
      Recorded byPath "/db/t".toList 77 ∧ Recorded byPath "/db/t".toList 78 ∧
      ∃ i tx key, Accepted asciiInterpreter plainHtml dropPages operations i tx ∧
        key ∈ tx.refs ∧
        ((∃ shards, Resolves asciiInterpreter plainHtml dropPages key "/db/s".toList shards ∧
            99 ∈ shards.map Shard.tabletId) ∨
          Resolves asciiInterpreter plainHtml dropPages key "/db/s".toList [] ∧
            99 ∈ tx.inProgress.map Shard.tabletId) := by
  rw [String.toList_ofList, String.toList_ofList]
  have hlist : dropPages.txList = .ok listText := rfl
  rw [hlist, Except.toOption, Option.getD_some]
  obtain ⟨first, second, hoperations⟩ := parseTxList_listText
  obtain ⟨byPath, hfetch, hitems⟩ := fetchInflightTablets_dropPages
  obtain ⟨honly, hall⟩ := inflight_tablets_attributed asciiInterpreter plainHtml dropPages
    hlist hoperations hfetch
  have hrecorded := hall 0 _ ⟨1, 2⟩ ['/', 'd', 'b', '/', 't'] _
    ⟨Nat.zero_lt_two, ⟨dropText, rfl, parseTxInfo_dropText⟩, rfl⟩ List.mem_cons_self
    ⟨_, ⟨droppedText, rfl, parsePathShards_droppedText⟩, by decide, by decide +kernel⟩
  have hsplit : Recorded byPath ['/', 'd', 'b', '/', 's'] 99 := by
    have hmem : (['/', 'd', 'b', '/', 's'], [99]) ∈
        byPath.items.map (fun item => (item.1, item.2.keys)) := by
      rw [hitems]
      exact List.mem_cons_of_mem _ List.mem_cons_self
    obtain ⟨item, hitem, heq⟩ := List.mem_map.mp hmem
    obtain ⟨hkey, hkeys⟩ := Prod.mk.inj heq
    refine ⟨item.2, Dict.mem_items_iff.mp (hkey ▸ hitem), ?_⟩
    rw [hkeys]
    exact List.mem_singleton_self 99
  refine ⟨_, byPath, hoperations, hfetch, hitems, hrecorded _ List.mem_cons_self,
    hrecorded ⟨some (1, 7), 78⟩ (by simp), ?_⟩
  rcases honly _ _ hsplit with
    ⟨i, tx, key, shards, haccepted, hkey, hresolves, htablet⟩ |
    ⟨i, tx, key, haccepted, hrefs, hresolves, htablet, -⟩
  · exact ⟨i, tx, key, haccepted, hkey, Or.inl ⟨shards, hresolves, htablet⟩⟩
  · exact ⟨i, tx, key, haccepted, by simp [hrefs], Or.inr ⟨hresolves, htablet⟩⟩

end Attribution

end Tablets
end YdbSnippets
