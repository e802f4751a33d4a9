import YdbSnippets.Restore.Listings
import Mathlib.Data.List.Count
import Mathlib.Data.List.Infix
import Mathlib.Data.List.Nodup

/-!
# Destinations of the restored tables

`ydb-restore.py` names every exported table by the part of its key behind the input
prefix, and imports it under the output prefix.
-/

namespace YdbSnippets
namespace Restore

open Python

section Definitions

/-- The prefix of the destinations in `importFromS3`. -/
def outputPath (database : Str) (output : Option Str) : Str :=
  let normal :=
    match output with
    | none => none
    | some out =>
        if out ≠ [] ∧ out ≠ ['.'] then
          let out := if endsWith out ['/'] then out else out ++ ['/']
          some (if out.head? = some '/' then out.drop 1 else out)
        else some out
  match normal with
  | none => database ++ ['/']
  | some out =>
      if out = [] ∨ out = ['.'] then database ++ ['/'] else database ++ '/' :: out

/-- The sources and destinations that `importFromS3` adds to the settings. -/
def importFromS3 (database : Str) (output : Option Str) (tables : Dict Str Str) :
    List (Str × Str) :=
  tables.items.map fun entry => (entry.2, outputPath database output ++ entry.1)

/-- The items of a run of the tool. -/
def restore (serve : Serve) (database : Str) (output : Option Str) (pre : Str) (fuel : Nat) :
    Option (Except ListingError (List (Str × Str))) :=
  (locateTables serve pre fuel).map fun listing =>
    importFromS3 database output <$> listing.outcome

/-- The keys of the form `<dir>/scheme.pb` under the input prefix. -/
def schemeKeys (pre : Str) (bucket : List Str) : List Str :=
  (bucket.filter (scanPrefix pre).isPrefixOf).filter fun key => endsWith key schemeSuffix

/-- The output prefix without a slash at either end, if one is given. -/
def outputCore : Option Str → Option Str
  | none => none
  | some out =>
      if out = [] ∨ out = ['.'] ∨ out = ['/'] then none
      else
        let out := if out.head? = some '/' then out.drop 1 else out
        some (if endsWith out ['/'] then out.dropLast else out)

/-- The parts of a path have one slash between them. -/
def SingleSlashes : List Str → Prop
  | [] => True
  | [_] => True
  | first :: second :: rest =>
      first.getLast? ≠ some '/' ∧ second ≠ [] ∧ second.head? ≠ some '/' ∧
        SingleSlashes (second :: rest)

/-- The database, the output prefix if one is given, and the table. -/
def destinationParts (database : Str) (output : Option Str) (table : Str) : List Str :=
  database :: ((outputCore output).toList ++ [table])

/-- Every key gives one item, different keys give different destinations, and each
destination is joined of the database, the output prefix and a table's path. -/
structure RestoresEachTable (database : Str) (output : Option Str) (pre : Str)
    (keys : List Str) (items : List (Str × Str)) : Prop where
  once : ∀ key ∈ keys, (items.map Prod.fst).count (dataPath key) = 1
  distinct : ∀ key ∈ keys, ∀ other ∈ keys, key ≠ other →
    ∀ item ∈ items, ∀ item' ∈ items,
      item.1 = dataPath key → item'.1 = dataPath other → item.2 ≠ item'.2
  joined : ∀ item ∈ items, ∃ table, table ≠ [] ∧ item.1 = scanPrefix pre ++ table ∧
    item.2 = List.intercalate ['/'] (destinationParts database output table) ∧
    SingleSlashes (destinationParts database output table)

/-- The key of a table whose path behind the prefix is neither empty nor starts with a
slash. -/
def IsTableKey (pre key : Str) : Prop :=
  ∃ table, key = scanPrefix pre ++ table ++ schemeSuffix ∧ table ≠ [] ∧
    table.head? ≠ some '/'

/-- Neither the database nor the output prefix brings a second slash along. -/
def Joinable (database : Str) (output : Option Str) : Prop :=
  database.getLast? ≠ some '/' ∧
    ∀ core ∈ outputCore output, core ≠ [] ∧ core.head? ≠ some '/' ∧ core.getLast? ≠ some '/'

end Definitions

section Keys

variable {pre key : Str}

/-- A table's name that is not empty stands behind the prefix. -/
theorem dataPath_of_tableName
    (hpre : scanPrefix pre <+: key) (hname : tableName (scanPrefix pre) key ≠ []) :
    dataPath key = scanPrefix pre ++ tableName (scanPrefix pre) key := by
  have hlength : (scanPrefix pre).length < (dataPath key).length := by
    by_contra hle
    exact hname (List.drop_of_length_le (Nat.le_of_not_lt hle))
  have hprefix : scanPrefix pre <+: dataPath key :=
    List.prefix_of_prefix_length_le hpre (List.take_prefix _ _) hlength.le
  obtain ⟨table, htable⟩ := hprefix
  unfold tableName
  rw [← htable, List.drop_left' rfl]

theorem isTableKey_iff
    (hpre : scanPrefix pre <+: key) (hsuffix : endsWith key schemeSuffix = true) :
    IsTableKey pre key ↔
      tableName (scanPrefix pre) key ≠ [] ∧
        (tableName (scanPrefix pre) key).head? ≠ some '/' := by
  constructor
  · rintro ⟨table, rfl, hne, hhead⟩
    have hname : tableName (scanPrefix pre) (scanPrefix pre ++ table ++ schemeSuffix) = table := by
      unfold tableName
      rw [dataPath_append, List.drop_left' rfl]
    rw [hname]
    exact ⟨hne, hhead⟩
  · rintro ⟨hne, hhead⟩
    refine ⟨tableName (scanPrefix pre) key, ?_, hne, hhead⟩
    rw [← dataPath_of_tableName hpre hne]
    exact eq_dataPath_append hsuffix

theorem mem_schemeKeys
    {bucket : List Str} :
    key ∈ schemeKeys pre bucket ↔
      key ∈ bucket ∧ scanPrefix pre <+: key ∧ endsWith key schemeSuffix = true := by
  unfold schemeKeys
  rw [List.mem_filter, List.mem_filter, List.isPrefixOf_iff_prefix]
  exact and_assoc

end Keys

section Tables

variable {pre : Str} {bucket : List Str}

/-- The entries that `locateTables` makes of the keys. -/
def entriesOf (pre : Str) (keys : List Str) : List (Str × Str) :=
  keys.map fun key => (tableName (scanPrefix pre) key, dataPath key)

/-- The keys that are no scheme files leave the tables as they are. -/
theorem foldl_addKey (pre : Str) (keys : List Str) (tables : Dict Str Str) :
    (keys.map some).foldl (addKey (scanPrefix pre)) tables =
      tables.update (entriesOf pre (keys.filter fun key => endsWith key schemeSuffix)) := by
  induction keys generalizing tables with
  | nil => rfl
  | cons key keys ih =>
      rw [List.map_cons, List.foldl_cons, ih, addKey]
      by_cases hscheme : endsWith key schemeSuffix = true
      · rw [if_pos hscheme, List.filter_cons_of_pos (by exact hscheme)]
        rfl
      · rw [if_neg hscheme, List.filter_cons_of_neg (by exact hscheme)]

/-- The tables of a listing of the bucket. -/
theorem tablesOf_eq
    {pages : List Page}
    (hlist : (pages.flatMap fun page => page.contents.getD []) =
      (bucket.filter (scanPrefix pre).isPrefixOf).map some) :
    tablesOf pre pages = Dict.ofItems (entriesOf pre (schemeKeys pre bucket)) := by
  unfold tablesOf
  rw [hlist, foldl_addKey]
  rfl

theorem exists_key_of_mem_items
    {entry : Str × Str}
    (h : entry ∈ (Dict.ofItems (entriesOf pre (schemeKeys pre bucket))).items) :
    ∃ key ∈ schemeKeys pre bucket, entry = (tableName (scanPrefix pre) key, dataPath key) := by
  obtain ⟨key, hkey, hentry⟩ :=
    List.mem_map.mp (Dict.mem_of_get?_ofItems (Dict.mem_items_iff.mp h))
  exact ⟨key, hkey, hentry.symm⟩

/-- Every table's name is a key of the dictionary. -/
theorem exists_entry_of_key
    {key : Str} (hkey : key ∈ schemeKeys pre bucket) :
    ∃ path, (tableName (scanPrefix pre) key, path) ∈
      (Dict.ofItems (entriesOf pre (schemeKeys pre bucket))).items := by
  have hmem : (tableName (scanPrefix pre) key, dataPath key) ∈
      entriesOf pre (schemeKeys pre bucket) :=
    List.mem_map.mpr ⟨key, hkey, rfl⟩
  obtain ⟨path, hpath⟩ := Dict.exists_get?_ofItems hmem
  exact ⟨path, Dict.mem_items_iff.mpr hpath⟩

/-- The name of a table is determined by the directory it comes from. -/
theorem nodup_sources :
    ((Dict.ofItems (entriesOf pre (schemeKeys pre bucket))).items.map Prod.snd).Nodup := by
  have hnames : ((Dict.ofItems (entriesOf pre (schemeKeys pre bucket))).items.map Prod.snd).map
      (List.drop (scanPrefix pre).length) =
        (Dict.ofItems (entriesOf pre (schemeKeys pre bucket))).keys := by
    rw [List.map_map]
    refine List.map_congr_left fun entry hentry => ?_
    obtain ⟨key, -, rfl⟩ := exists_key_of_mem_items hentry
    rfl
  refine List.Nodup.of_map (List.drop (scanPrefix pre).length) ?_
  rw [hnames]
  exact Dict.nodup_keys _

end Tables

section Outputs

/-- A slash that is put on behind and one that is taken off in front leave the core and
one slash. -/
theorem drop_append_slash
    {out : Str} (hne : out ≠ []) (hslash : out ≠ ['/']) :
    ∃ core, outputCore (some out) = (if out = ['.'] then none else some core) ∧
      (let out := if endsWith out ['/'] then out else out ++ ['/']
       if out.head? = some '/' then out.drop 1 else out) = core ++ ['/'] := by
  have hrest : ∃ rest, rest ≠ [] ∧ rest <:+ out ∧
      (if out.head? = some '/' then out.drop 1 else out) = rest ∧
      (if (out ++ ['/']).head? = some '/' then (out ++ ['/']).drop 1 else out ++ ['/']) =
        rest ++ ['/'] := by
    obtain ⟨c, tail, rfl⟩ := List.exists_cons_of_ne_nil hne
    by_cases hc : c = '/'
    · subst hc
      refine ⟨tail, fun h => hslash (by rw [h]), List.suffix_cons _ _, ?_, ?_⟩
      · simp
      · simp
    · refine ⟨c :: tail, List.cons_ne_nil _ _, List.suffix_rfl, ?_, ?_⟩
      · simp [hc]
      · simp [hc]
  obtain ⟨rest, hrestne, hsuffix, hstrip, hstrip'⟩ := hrest
  have hends : endsWith rest ['/'] = endsWith out ['/'] := by
    refine Bool.eq_iff_iff.mpr ?_
    unfold endsWith
    rw [List.isSuffixOf_iff_suffix, List.isSuffixOf_iff_suffix]
    exact ⟨fun h => h.trans hsuffix, fun h => List.suffix_of_suffix_length_le h hsuffix
      (List.length_pos_iff.mpr hrestne)⟩
  refine ⟨if endsWith rest ['/'] then rest.dropLast else rest, ?_, ?_⟩
  · unfold outputCore
    by_cases hdot : out = ['.']
    · simp [hdot]
    · have hgiven : ¬ (out = [] ∨ out = ['.'] ∨ out = ['/']) := by
        simp [hne, hslash, hdot]
      simp only [if_neg hgiven, if_neg hdot, hstrip]
  · cases hout : endsWith out ['/'] with
    | true =>
        rw [hends, hout, if_pos rfl, if_pos rfl, hstrip]
        obtain ⟨init, hinit⟩ := endsWith_iff.mp (hends.trans hout)
        rw [hinit, List.dropLast_concat]
    | false =>
        rw [hends, hout, if_neg Bool.false_ne_true, if_neg Bool.false_ne_true, hstrip']

/-- The prefix of the destinations: the database, and the core of the output prefix if
one is given. -/
theorem outputPath_eq (database : Str) (output : Option Str) :
    outputPath database output =
      database ++ '/' :: ((outputCore output).toList.flatMap (· ++ ['/'])) := by
  cases output with
  | none => rfl
  | some out =>
      by_cases hne : out = []
      · subst hne
        rfl
      · by_cases hslash : out = ['/']
        · subst hslash
          rfl
        · obtain ⟨core, hcore, hnormal⟩ := drop_append_slash hne hslash
          by_cases hdot : out = ['.']
          · subst hdot
            rfl
          · rw [if_neg hdot] at hcore
            have hnot : ¬ (core ++ ['/'] = [] ∨ core ++ ['/'] = ['.']) := by
              rintro (h | h)
              · simp at h
              · have hlast := congrArg List.getLast? h
                simp at hlast
            unfold outputPath
            simp only [hne, hdot, ne_eq, not_false_eq_true, and_self, if_true]
            rw [hnormal, if_neg hnot, hcore]
            simp

/-- A destination has a slash between its parts. -/
theorem outputPath_append (database : Str) (output : Option Str) (table : Str) :
    outputPath database output ++ table =
      List.intercalate ['/'] (destinationParts database output table) := by
  rw [outputPath_eq, destinationParts]
  cases outputCore output with
  | none => simp [List.intercalate]
  | some core => simp [List.intercalate]

theorem singleSlashes_iff
    {database table : Str} {output : Option Str} :
    SingleSlashes (destinationParts database output table) ↔
      Joinable database output ∧ table ≠ [] ∧ table.head? ≠ some '/' := by
  unfold destinationParts Joinable
  cases outputCore output with
  | none => simp [SingleSlashes]
  | some core =>
      simp only [Option.toList_some, List.singleton_append, SingleSlashes, Option.mem_some,
        forall_eq']
      tauto

end Outputs

section Destinations

variable {database pre : Str} {output : Option Str} {bucket : List Str}

/-- The items of the tables that are found in the bucket. -/
def itemsOf (database : Str) (output : Option Str) (pre : Str) (bucket : List Str) :
    List (Str × Str) :=
  importFromS3 database output (Dict.ofItems (entriesOf pre (schemeKeys pre bucket)))

theorem mem_itemsOf
    {item : Str × Str} :
    item ∈ itemsOf database output pre bucket ↔
      ∃ entry ∈ (Dict.ofItems (entriesOf pre (schemeKeys pre bucket))).items,
        item = (entry.2, outputPath database output ++ entry.1) := by
  unfold itemsOf importFromS3
  rw [List.mem_map]
  exact exists_congr fun _ => and_congr_right fun _ => eq_comm

/-- If every key is that of a table the items are as they should be. -/
theorem restores_of_tableKeys
    (hkeys : ∀ key ∈ schemeKeys pre bucket, IsTableKey pre key)
    (hjoin : schemeKeys pre bucket ≠ [] → Joinable database output) :
    RestoresEachTable database output pre (schemeKeys pre bucket)
      (itemsOf database output pre bucket) := by
  have hspec : ∀ key ∈ schemeKeys pre bucket,
      dataPath key = scanPrefix pre ++ tableName (scanPrefix pre) key ∧
        tableName (scanPrefix pre) key ≠ [] ∧
        (tableName (scanPrefix pre) key).head? ≠ some '/' := by
    intro key hkey
    obtain ⟨-, hpre, hsuffix⟩ := mem_schemeKeys.mp hkey
    obtain ⟨hne, hhead⟩ := (isTableKey_iff hpre hsuffix).mp (hkeys key hkey)
    exact ⟨dataPath_of_tableName hpre hne, hne, hhead⟩
  constructor
  · intro key hkey
    have hsources : (itemsOf database output pre bucket).map Prod.fst =
        (Dict.ofItems (entriesOf pre (schemeKeys pre bucket))).items.map Prod.snd := by
      unfold itemsOf importFromS3
      rw [List.map_map]
      rfl
    rw [hsources]
    refine List.count_eq_one_of_mem nodup_sources ?_
    obtain ⟨path, hentry⟩ := exists_entry_of_key hkey
    obtain ⟨other, hother, heq⟩ := exists_key_of_mem_items hentry
    obtain ⟨hname, hpath⟩ := Prod.mk.inj heq
    refine List.mem_map.mpr ⟨_, hentry, ?_⟩
    rw [hpath, (hspec other hother).1, ← hname, ← (hspec key hkey).1]
  · intro key hkey other hother hne item hitem item' hitem' hsource hsource' hdest
    obtain ⟨entry, hentry, rfl⟩ := mem_itemsOf.mp hitem
    obtain ⟨entry', hentry', rfl⟩ := mem_itemsOf.mp hitem'
    have hname := List.append_cancel_left hdest
    have hget := Dict.mem_items_iff.mp hentry
    have hget' := Dict.mem_items_iff.mp hentry'
    rw [hname] at hget
    have hpath : dataPath key = dataPath other := by
      rw [← hsource, ← hsource']
      exact Option.some.inj (hget.symm.trans hget')
    refine hne ?_
    rw [eq_dataPath_append (mem_schemeKeys.mp hkey).2.2, hpath,
      ← eq_dataPath_append (mem_schemeKeys.mp hother).2.2]
  · intro item hitem
    obtain ⟨entry, hentry, rfl⟩ := mem_itemsOf.mp hitem
    obtain ⟨key, hkey, rfl⟩ := exists_key_of_mem_items hentry
    obtain ⟨hpath, hne, hhead⟩ := hspec key hkey
    exact ⟨_, hne, hpath, outputPath_append _ _ _,
      singleSlashes_iff.mpr ⟨hjoin (List.ne_nil_of_mem hkey), hne, hhead⟩⟩

/-- If the items are as they should be, every key is that of a table. -/
theorem tableKeys_of_restores
    (h : RestoresEachTable database output pre (schemeKeys pre bucket)
      (itemsOf database output pre bucket)) :
    (∀ key ∈ schemeKeys pre bucket, IsTableKey pre key) ∧
      (schemeKeys pre bucket ≠ [] → Joinable database output) := by
  have hspec : ∀ key ∈ schemeKeys pre bucket,
      Joinable database output ∧ tableName (scanPrefix pre) key ≠ [] ∧
        (tableName (scanPrefix pre) key).head? ≠ some '/' := by
    intro key hkey
    obtain ⟨path, hentry⟩ := exists_entry_of_key hkey
    obtain ⟨table, hne, hsource, -, hslashes⟩ :=
      h.joined _ (mem_itemsOf.mpr ⟨_, hentry, rfl⟩)
    obtain ⟨other, -, heq⟩ := exists_key_of_mem_items hentry
    obtain ⟨hname, hpath⟩ := Prod.mk.inj heq
    -- The path behind the prefix is the name under which the table is kept.
    have htable : tableName (scanPrefix pre) key = table := by
      rw [hname, tableName, ← hpath]
      exact (congrArg (List.drop _) hsource).trans (List.drop_left' rfl)
    rw [htable]
    exact singleSlashes_iff.mp hslashes
  constructor
  · intro key hkey
    obtain ⟨-, hpre, hsuffix⟩ := mem_schemeKeys.mp hkey
    exact (isTableKey_iff hpre hsuffix).mpr (hspec key hkey).2
  · intro hne
    obtain ⟨key, hkey⟩ := List.exists_mem_of_ne_nil _ hne
    exact (hspec key hkey).1

theorem restores_iff :
    RestoresEachTable database output pre (schemeKeys pre bucket)
        (itemsOf database output pre bucket) ↔
      (∀ key ∈ schemeKeys pre bucket, IsTableKey pre key) ∧
        (schemeKeys pre bucket ≠ [] → Joinable database output) :=
  ⟨tableKeys_of_restores, fun h => restores_of_tableKeys h.1 h.2⟩

/-- The items of a run over well-formed pages. -/
theorem restore_eq
    {serve : Serve} {pages : List Page}
    (hserves : ServesFrom serve none pages) (hwell : WellFormed pages)
    (hlist : (pages.flatMap fun page => page.contents.getD []) =
      (bucket.filter (scanPrefix pre).isPrefixOf).map some) :
    restore serve database output pre pages.length =
      some (.ok (itemsOf database output pre bucket)) := by
  have hrun : locateTables serve pre pages.length =
      some ⟨requestsFrom none pages, .ok (tablesOf pre pages)⟩ := by
    rw [locateTables, locateLoop_wellFormed hserves hwell, foldl_addPage]
    rfl
  rw [restore, hrun, tablesOf_eq hlist]
  rfl

/-- The tool restores every table to a destination of its own iff every key is that of a
table and, if there is one, neither the database nor the output prefix brings a second
slash along. -/
theorem restores_each_table_iff
    (serve : Serve)
    (pages : List Page)
    (bucket : List Str)
    (database pre : Str)
    (output : Option Str)
    (hserves : ServesFrom serve none pages)
    (hwell : WellFormed pages)
    (hlist : (pages.flatMap fun page => page.contents.getD []) =
      (bucket.filter (scanPrefix pre).isPrefixOf).map some) :
    ∃ items, restore serve database output pre pages.length = some (.ok items) ∧
      (RestoresEachTable database output pre (schemeKeys pre bucket) items ↔
        (∀ key ∈ schemeKeys pre bucket, IsTableKey pre key) ∧
          (schemeKeys pre bucket ≠ [] → Joinable database output)) :=
  ⟨_, restore_eq hserves hwell hlist, restores_iff⟩

/-- A bucket with two exported tables below a prefix, and one elsewhere. -/
def dumpBucket : List Str :=
  ["dump/orders/data_00.csv".toList, "dump/orders/scheme.pb".toList,
    "dump/sales/2024/scheme.pb".toList, "dumpster/scheme.pb".toList]

/-- The listing of what is below the prefix. -/
def dumpPages : List Page :=
  [⟨some [some "dump/orders/data_00.csv".toList, some "dump/orders/scheme.pb".toList], true,
      some ['1']⟩,
    ⟨some [some "dump/sales/2024/scheme.pb".toList], false, none⟩]

def serveDump : Serve
  | none => .ok (dumpPages.getD 0 ⟨none, false, none⟩)
  | some token =>
      if token = ['1'] then .ok (dumpPages.getD 1 ⟨none, false, none⟩) else .error .clientError

theorem restores_orders :
    ∃ items, restore serveDump "/local".toList (some "old".toList) "dump".toList 2 =
        some (.ok items) ∧
      items = [("dump/orders".toList, "/local/old/orders".toList),
        ("dump/sales/2024".toList, "/local/old/sales/2024".toList)] ∧
      RestoresEachTable "/local".toList (some "old".toList) "dump".toList
        (schemeKeys "dump".toList dumpBucket) items := by
  have hserves : ServesFrom serveDump none dumpPages :=
    ⟨rfl, rfl, ['1'], rfl, rfl, fun h => by cases h⟩
  have hwell : WellFormed dumpPages := by
    intro page hpage htruncated
    rcases List.mem_pair.mp hpage with rfl | rfl
    · simp
    · cases htruncated
  obtain ⟨items, hitems, hiff⟩ := restores_each_table_iff serveDump dumpPages dumpBucket
    "/local".toList "dump".toList (some "old".toList) hserves hwell (by decide +kernel)
  have hrun : restore serveDump "/local".toList (some "old".toList) "dump".toList 2 =
      some (.ok [("dump/orders".toList, "/local/old/orders".toList),
        ("dump/sales/2024".toList, "/local/old/sales/2024".toList)]) := rfl
  have hsame := Except.ok.inj (Option.some.inj (hitems.symm.trans hrun))
  refine ⟨items, hitems, hsame, hiff.mpr ⟨?_, fun _ => ?_⟩⟩
  · intro key hkey
    have hkeys : schemeKeys "dump".toList dumpBucket =
        ["dump/orders/scheme.pb".toList, "dump/sales/2024/scheme.pb".toList] := by
      decide +kernel
    rw [hkeys] at hkey
    rcases List.mem_pair.mp hkey with rfl | rfl
    · exact ⟨"orders".toList, rfl, by decide, by decide⟩
    · exact ⟨"sales/2024".toList, rfl, by decide, by decide⟩
  · refine ⟨by decide, ?_⟩
    intro core hcore
    rw [← Option.mem_some.mp hcore]
    decide

/-- A bucket with one exported table. -/
def ordersBucket : List Str := ["dump/orders/scheme.pb".toList]

/-- If the input prefix is the directory of a table, the table has no name and is
imported as the output prefix itself. -/
theorem not_restores_single_table :
    restore (fun _ => .ok ⟨some (ordersBucket.map some), false, none⟩)
        "/local".toList (some "old".toList) "dump/orders".toList 1 =
      some (.ok [("dump/orders".toList, "/local/old/".toList)]) ∧
    ¬ RestoresEachTable "/local".toList (some "old".toList) "dump/orders".toList
      (schemeKeys "dump/orders".toList ordersBucket)
      [("dump/orders".toList, "/local/old/".toList)] := by
  refine ⟨rfl, ?_⟩
  intro h
  obtain ⟨table, hne, hsource, -⟩ := h.joined _ List.mem_cons_self
  have hlength := congrArg List.length hsource
  have hpre : (scanPrefix "dump/orders".toList).length = 12 := rfl
  rw [List.length_append, hpre] at hlength
  exact absurd hlength (by
    have hshort : "dump/orders".toList.length = 11 := rfl
    rw [hshort]
    omega)

end Destinations

end Restore
end YdbSnippets
