import YdbSnippets.Schemas.Fingerprint

/-!
# What a fingerprint says about the structure of a table

The fingerprint keeps the types of key and index columns, not the columns
themselves.
-/

namespace YdbSnippets
namespace Schemas

open Python Matching

section Structure

variable {τ : Type}

def TableDescription.columnNames (d : TableDescription τ) : List Str :=
  d.columns.map Column.name

/-- The type of the column with this name. -/
def TableDescription.typeOf (d : TableDescription τ) (name : Str) : Option τ :=
  (d.columns.find? fun column => column.name = name).map Column.typePb

/-- Column names are distinct, and keys and indexes use only these columns. -/
structure TableDescription.WellFormed (d : TableDescription τ) : Prop where
  nodup : d.columnNames.Nodup
  primaryKey : ∀ name ∈ d.primaryKey, name ∈ d.columnNames
  indexColumns : ∀ index ∈ d.indexes, ∀ name ∈ index.indexColumns, name ∈ d.columnNames
  dataColumns : ∀ index ∈ d.indexes, ∀ name ∈ index.dataColumns, name ∈ d.columnNames

/-- A bijection of the columns that keeps types. -/
def ColumnBijection (d d' : TableDescription τ) (f : Str → Str) : Prop :=
  Set.BijOn f {name | name ∈ d.columnNames} {name | name ∈ d'.columnNames} ∧
    ∀ name ∈ d.columnNames, d.typeOf name = d'.typeOf (f name)

/-- One bijection of the columns carries key and indexes of one table to those
of the other. -/
def SameStructure (d d' : TableDescription τ) : Prop :=
  ∃ f, ColumnBijection d d' f ∧ d.primaryKey.map f = d'.primaryKey ∧
    Matched (fun i j => indexKind i = indexKind j ∧ i.indexColumns.map f = j.indexColumns ∧
      i.dataColumns.map f = j.dataColumns) d.indexes d'.indexes

/-- Columns of the two tables have the same type. -/
def SameType (d d' : TableDescription τ) (name name' : Str) : Prop :=
  d.typeOf name = d'.typeOf name'

/-- The columns, the columns of the key and those of matching indexes have the
same types. -/
structure SameTypes (d d' : TableDescription τ) : Prop where
  columns : ∃ f, ColumnBijection d d' f
  primaryKey : List.Forall₂ (SameType d d') d.primaryKey d'.primaryKey
  indexes : Matched (fun i j => indexKind i = indexKind j ∧
    List.Forall₂ (SameType d d') i.indexColumns j.indexColumns ∧
    List.Forall₂ (SameType d d') i.dataColumns j.dataColumns) d.indexes d'.indexes

/-- All messages of types can be serialised, different ones differently. -/
structure TypeMessages.Faithful (messages : TypeMessages τ) : Prop where
  serialises : ∀ t, ∃ raw, messages.serializeToString t = some raw
  injective : Function.Injective messages.serializeToString

end Structure

section Types

variable {τ : Type} {messages : TypeMessages τ} {d d' : TableDescription τ}

theorem hex_injective :
    Function.Injective hex := by
  intro raw raw' h
  have hread : some (raw.map UInt8.toBitVec) = some (raw'.map UInt8.toBitVec) := by
    rw [← fromHex_hexOf (raw.map UInt8.toBitVec), ← fromHex_hexOf (raw'.map UInt8.toBitVec)]
    exact congrArg fromHex h
  exact List.map_injective_iff.mpr (fun _ _ => UInt8.toBitVec_inj.mp) (Option.some.inj hread)

/-- Equal texts of types stand for equal types. -/
theorem serializeType_inj
    (hfaithful : messages.Faithful) {c c' : Column τ} :
    serializeType messages c = serializeType messages c' ↔ c.typePb = c'.typePb := by
  obtain ⟨raw, hraw⟩ := hfaithful.serialises c.typePb
  obtain ⟨raw', hraw'⟩ := hfaithful.serialises c'.typePb
  unfold serializeType
  rw [hraw, hraw']
  constructor
  · intro h
    exact hfaithful.injective (by rw [hraw, hraw', hex_injective h])
  · intro h
    rw [h, hraw'] at hraw
    cases hraw
    rfl

theorem typeByColName_eq
    (hnodup : d.columnNames.Nodup) :
    typeByColName messages d =
      d.columns.map fun column => (column.name, serializeType messages column) := by
  refine Dict.foldl_setItems ?_
  rw [List.nil_append, List.map_map]
  exact hnodup

/-- The dict has the type of each column under its name. -/
theorem lookup_typeByColName
    (hnodup : d.columnNames.Nodup) (name : Str) :
    (typeByColName messages d).lookup name =
      (d.columns.find? fun column => column.name = name).map (serializeType messages) := by
  rw [typeByColName_eq hnodup]
  clear hnodup
  induction d.columns with
  | nil => rfl
  | cons column columns ih =>
      rw [List.map_cons, Dict.lookup_cons_ite, List.find?_cons]
      by_cases hname : name = column.name
      · simp [hname]
      · rw [if_neg hname, ih]
        simp [Ne.symm hname]

theorem exists_column
    {name : Str} (hname : name ∈ d.columnNames) :
    ∃ column, (d.columns.find? fun column => column.name = name) = some column := by
  obtain ⟨column, hmem, rfl⟩ := List.mem_map.mp hname
  exact Option.isSome_iff_exists.mp (List.find?_isSome.mpr ⟨column, hmem, by simp⟩)

/-- Columns have equal entries in the dicts if and only if their types are equal. -/
theorem lookup_eq_iff_sameType
    (hfaithful : messages.Faithful) (hnodup : d.columnNames.Nodup)
    (hnodup' : d'.columnNames.Nodup) {name name' : Str}
    (hname : name ∈ d.columnNames) (hname' : name' ∈ d'.columnNames) :
    ((typeByColName messages d).lookup name).getD "<unknown>".toList =
        ((typeByColName messages d').lookup name').getD "<unknown>".toList ↔
      SameType d d' name name' := by
  obtain ⟨column, hcolumn⟩ := exists_column hname
  obtain ⟨column', hcolumn'⟩ := exists_column hname'
  rw [lookup_typeByColName hnodup, lookup_typeByColName hnodup', SameType,
    TableDescription.typeOf, TableDescription.typeOf, hcolumn, hcolumn']
  exact (serializeType_inj hfaithful).trans (by simp)

theorem columnTypesOf_eq_iff
    (hfaithful : messages.Faithful) (hnodup : d.columnNames.Nodup)
    (hnodup' : d'.columnNames.Nodup) {names names' : List Str}
    (hnames : ∀ name ∈ names, name ∈ d.columnNames)
    (hnames' : ∀ name ∈ names', name ∈ d'.columnNames) :
    columnTypesOf (typeByColName messages d) names =
        columnTypesOf (typeByColName messages d') names' ↔
      List.Forall₂ (SameType d d') names names' := by
  unfold columnTypesOf
  rw [← List.forall₂_eq_eq_eq, List.forall₂_map_left_iff, List.forall₂_map_right_iff]
  constructor
  · intro h
    refine (List.forall₂_iff_zip.mpr ⟨h.length_eq, fun {a b} hab => ?_⟩)
    have hmem := List.of_mem_zip hab
    exact (lookup_eq_iff_sameType hfaithful hnodup hnodup' (hnames a hmem.1)
      (hnames' b hmem.2)).mp ((List.forall₂_iff_zip.mp h).2 hab)
  · intro h
    refine (List.forall₂_iff_zip.mpr ⟨h.length_eq, fun {a b} hab => ?_⟩)
    have hmem := List.of_mem_zip hab
    exact (lookup_eq_iff_sameType hfaithful hnodup hnodup' (hnames a hmem.1)
      (hnames' b hmem.2)).mpr ((List.forall₂_iff_zip.mp h).2 hab)

end Types

section Fingerprints

variable {τ : Type} {messages : TypeMessages τ} {d d' : TableDescription τ}

/-- A column is found under its name. -/
theorem find?_of_mem
    {columns : List (Column τ)} {column : Column τ}
    (hnodup : (columns.map Column.name).Nodup) (hmem : column ∈ columns) :
    (columns.find? fun c => c.name = column.name) = some column := by
  induction columns with
  | nil => cases hmem
  | cons first columns ih =>
      rw [List.map_cons, List.nodup_cons] at hnodup
      rcases List.mem_cons.mp hmem with rfl | hmem
      · exact List.find?_cons_of_pos (by simp)
      · rw [List.find?_cons_of_neg, ih hnodup.2 hmem]
        intro heq
        exact hnodup.1 (of_decide_eq_true heq ▸ List.mem_map_of_mem hmem)

/-- The values of the dict, in the order of the columns. -/
theorem values_typeByColName
    (hnodup : d.columnNames.Nodup) :
    (typeByColName messages d).map Prod.snd =
      columnTypesOf (typeByColName messages d) d.columnNames := by
  have hvalue : ∀ column ∈ d.columns, serializeType messages column =
      ((typeByColName messages d).lookup column.name).getD "<unknown>".toList := by
    intro column hmem
    rw [lookup_typeByColName hnodup, find?_of_mem hnodup hmem]
    rfl
  have hvalues : (typeByColName messages d).map Prod.snd =
      d.columns.map (serializeType messages) := by
    rw [typeByColName_eq hnodup, List.map_map]
    rfl
  rw [hvalues, columnTypesOf, TableDescription.columnNames, List.map_map]
  exact List.map_congr_left hvalue

/-- Equal multisets of column types are a bijection of the columns. -/
theorem columnTypes_perm_iff
    (hfaithful : messages.Faithful) (hd : d.WellFormed) (hd' : d'.WellFormed) :
    ((typeByColName messages d).map Prod.snd).Perm ((typeByColName messages d').map Prod.snd) ↔
      ∃ f, ColumnBijection d d' f := by
  rw [values_typeByColName hd.nodup, values_typeByColName hd'.nodup, columnTypesOf, columnTypesOf,
    map_perm_map_iff]
  have hsame := fun name hname name' hname' =>
    @lookup_eq_iff_sameType _ messages _ _ hfaithful hd.nodup hd'.nodup name name' hname hname'
  constructor
  · intro h
    obtain ⟨names, hperm, hnames⟩ := h.imp fun name hname name' hname' =>
      (hsame name hname name' hname').mp
    obtain ⟨f, hmap, hf⟩ := exists_map_of_forall₂ hd.nodup hnames id
    exact ⟨f, (bijOn_iff_map_perm hd.nodup hd'.nodup).mpr (hmap ▸ hperm), hf⟩
  · rintro ⟨f, hbij, hf⟩
    have hmatched : Matched (SameType d d') d.columnNames d'.columnNames := by
      refine ⟨d.columnNames.map f, (bijOn_iff_map_perm hd.nodup hd'.nodup).mp hbij, ?_⟩
      rw [List.forall₂_map_right_iff, List.forall₂_same]
      exact hf
    exact hmatched.imp fun name hname name' hname' => (hsame name hname name' hname').mpr

/-- Equal multisets of index signatures are a matching of the indexes. -/
theorem indexSignatures_perm_iff
    (hfaithful : messages.Faithful) (hd : d.WellFormed) (hd' : d'.WellFormed) :
    (d.indexes.map fun index =>
        (toLex (indexKind index,
          toLex (columnTypesOf (typeByColName messages d) index.indexColumns,
            columnTypesOf (typeByColName messages d) index.dataColumns)) :
          Str ×ₗ List Str ×ₗ List Str)).Perm
      (d'.indexes.map fun index =>
        toLex (indexKind index,
          toLex (columnTypesOf (typeByColName messages d') index.indexColumns,
            columnTypesOf (typeByColName messages d') index.dataColumns))) ↔
      Matched (fun i j => indexKind i = indexKind j ∧
        List.Forall₂ (SameType d d') i.indexColumns j.indexColumns ∧
        List.Forall₂ (SameType d d') i.dataColumns j.dataColumns) d.indexes d'.indexes := by
  rw [map_perm_map_iff]
  have hiff : ∀ i ∈ d.indexes, ∀ j ∈ d'.indexes, (_ ↔ _) := fun i hi j hj => by
    have hindex := columnTypesOf_eq_iff hfaithful hd.nodup hd'.nodup (hd.indexColumns i hi)
      (hd'.indexColumns j hj)
    have hdata := columnTypesOf_eq_iff hfaithful hd.nodup hd'.nodup (hd.dataColumns i hi)
      (hd'.dataColumns j hj)
    exact and_congr (Iff.refl (indexKind i = indexKind j)) (and_congr hindex hdata)
  constructor
  · intro h
    refine h.imp fun i hi j hj heq => (hiff i hi j hj).mp ?_
    simpa using heq
  · intro h
    refine h.imp fun i hi j hj heq => ?_
    simpa using (hiff i hi j hj).mpr heq

/-- Fingerprints are equal if and only if the types of columns, key and indexes
agree. -/
theorem schemaFingerprint_eq_iff
    (hfaithful : messages.Faithful) (hd : d.WellFormed) (hd' : d'.WellFormed) :
    schemaFingerprint messages d = schemaFingerprint messages d' ↔ SameTypes d d' := by
  have hkey := columnTypesOf_eq_iff hfaithful hd.nodup hd'.nodup hd.primaryKey hd'.primaryKey
  have hcolumns := columnTypes_perm_iff hfaithful hd hd'
  have hindexes := indexSignatures_perm_iff hfaithful hd hd'
  unfold schemaFingerprint
  simp only [SchemaFingerprint.mk.injEq, mergeSort_eq_mergeSort_iff, hkey, hcolumns, hindexes]
  constructor
  · rintro ⟨-, hbij, -, hkeyTypes, hmatched⟩
    exact ⟨hbij, hkeyTypes, hmatched⟩
  · rintro ⟨hbij, hkeyTypes, hmatched⟩
    refine ⟨?_, hbij, hkeyTypes.length_eq, hkeyTypes, hmatched⟩
    have hlength := (hcolumns.mpr hbij).length_eq
    rw [typeByColName_eq hd.nodup, typeByColName_eq hd'.nodup] at hlength
    simpa using hlength

/-- Tables of one structure have the same types. -/
theorem SameStructure.sameTypes
    (hd : d.WellFormed) (h : SameStructure d d') :
    SameTypes d d' := by
  obtain ⟨f, ⟨hbij, htype⟩, hkey, hindexes⟩ := h
  have hmap : ∀ names : List Str, (∀ name ∈ names, name ∈ d.columnNames) →
      List.Forall₂ (SameType d d') names (names.map f) := by
    intro names hnames
    rw [List.forall₂_map_right_iff, List.forall₂_same]
    exact fun name hname => htype name (hnames name hname)
  refine ⟨⟨f, hbij, htype⟩, hkey ▸ hmap _ hd.primaryKey, ?_⟩
  refine hindexes.imp ?_
  rintro i hi j - ⟨hkind, hindex, hdata⟩
  exact ⟨hkind, hindex ▸ hmap _ (hd.indexColumns i hi), hdata ▸ hmap _ (hd.dataColumns i hi)⟩

end Fingerprints

section Groups

variable {τ ε : Type} {messages : TypeMessages τ}
variable {describeTable : Str → Except ε (TableDescription τ)}

/-- A group lists the tables with its fingerprint, after those it had. -/
theorem lookup_groupTablesBySchema
    {skip : Bool} {paths : List Str} {groups groups' : List (SchemaFingerprint × List Str)}
    (h : groupTablesBySchema messages describeTable skip paths groups = .ok groups')
    (key : SchemaFingerprint) :
    (groups'.lookup key).getD [] = (groups.lookup key).getD [] ++
      paths.filter fun path =>
        match describeTable path with
        | .ok desc => schemaFingerprint messages desc = key
        | .error _ => false := by
  induction paths generalizing groups with
  | nil =>
      cases h
      rw [List.filter_nil, List.append_nil]
  | cons path rest ih =>
      rw [groupTablesBySchema] at h
      cases hdesc : describeTable path with
      | error e =>
          rw [hdesc] at h
          rw [List.filter_cons_of_neg (by simp [hdesc])]
          cases skip with
          | true => exact ih h
          | false => cases h
      | ok desc =>
          rw [hdesc] at h
          rw [ih h, Dict.lookup_setItems]
          by_cases hkey : key = schemaFingerprint messages desc
          · rw [if_pos hkey, List.filter_cons_of_pos (by simp [hdesc, hkey]), hkey]
            simp
          · rw [if_neg hkey, List.filter_cons_of_neg (by simp [hdesc, Ne.symm hkey])]

/-- Two tables are in one group. -/
def InOneGroup (groups : List (SchemaFingerprint × List Str)) (path path' : Str) : Prop :=
  ∃ key, path ∈ (groups.lookup key).getD [] ∧ path' ∈ (groups.lookup key).getD []

theorem inOneGroup_iff
    {skip : Bool} {paths : List Str} {groups : List (SchemaFingerprint × List Str)}
    {path path' : Str} {d d' : TableDescription τ}
    (h : groupTablesBySchema messages describeTable skip paths [] = .ok groups)
    (hpath : path ∈ paths) (hpath' : path' ∈ paths)
    (hd : describeTable path = .ok d) (hd' : describeTable path' = .ok d') :
    InOneGroup groups path path' ↔
      schemaFingerprint messages d = schemaFingerprint messages d' := by
  unfold InOneGroup
  simp only [lookup_groupTablesBySchema h, List.lookup_nil, Option.getD_none, List.nil_append,
    List.mem_filter, hpath, hpath', hd, hd', decide_eq_true_eq, true_and]
  constructor
  · rintro ⟨key, hkey, hkey'⟩
    exact hkey.trans hkey'.symm
  · intro heq
    exact ⟨_, heq, rfl⟩

/-- Fingerprints and groups tell tables apart by the types of their columns, of
the columns of their keys and of the columns of their indexes; tables of one
structure are never told apart. -/
theorem fingerprints_classify_types
    {d d' : TableDescription τ}
    (hfaithful : messages.Faithful)
    (hd : d.WellFormed)
    (hd' : d'.WellFormed) :
    (schemaFingerprint messages d = schemaFingerprint messages d' ↔ SameTypes d d') ∧
      (SameStructure d d' → schemaFingerprint messages d = schemaFingerprint messages d') ∧
      ∀ (ε : Type) (describeTable : Str → Except ε (TableDescription τ)) (skip : Bool)
        (paths : List Str) (groups : List (SchemaFingerprint × List Str)) (path path' : Str),
        groupTablesBySchema messages describeTable skip paths [] = .ok groups →
        path ∈ paths → path' ∈ paths → describeTable path = .ok d → describeTable path' = .ok d' →
        (InOneGroup groups path path' ↔ SameTypes d d') := by
  have hiff := schemaFingerprint_eq_iff hfaithful hd hd'
  refine ⟨hiff, fun h => hiff.mpr (h.sameTypes hd), ?_⟩
  intro ε describeTable skip paths groups path path' h hpath hpath' hdesc hdesc'
  exact (inOneGroup_iff h hpath hpath' hdesc hdesc').trans hiff

/-- Types that are their own messages. -/
def rawMessages : TypeMessages (List UInt8) where
  serializeToString := some
  str _ := []

theorem rawMessages_faithful :
    rawMessages.Faithful :=
  ⟨fun t => ⟨t, rfl⟩, fun _ _ h => Option.some.inj h⟩

/-- A table with two columns of one type, keyed by `a`, with an index on `column`. -/
def indexedTable (column : Str) : TableDescription (List UInt8) where
  columns := [⟨['a'], [8, 1]⟩, ⟨['b'], [8, 1]⟩]
  primaryKey := [['a']]
  indexes := [⟨"idx".toList, some "global_index".toList, [column], []⟩]

theorem indexedTable_wellFormed
    {column : Str} (hcolumn : column ∈ [['a'], ['b']]) :
    (indexedTable column).WellFormed where
  nodup := by simp [indexedTable, TableDescription.columnNames]
  primaryKey := by simp [indexedTable, TableDescription.columnNames]
  indexColumns index hindex name hname := by
    obtain rfl := List.mem_singleton.mp hindex
    obtain rfl := List.mem_singleton.mp hname
    exact hcolumn
  dataColumns index hindex name hname := by
    obtain rfl := List.mem_singleton.mp hindex
    cases hname

theorem fingerprints_classify_indexed :
    (schemaFingerprint rawMessages (indexedTable ['a']) =
        schemaFingerprint rawMessages (indexedTable ['b']) ↔
      SameTypes (indexedTable ['a']) (indexedTable ['b'])) ∧
      (SameStructure (indexedTable ['a']) (indexedTable ['b']) →
        schemaFingerprint rawMessages (indexedTable ['a']) =
          schemaFingerprint rawMessages (indexedTable ['b'])) ∧
      ∀ (ε : Type) (describeTable : Str → Except ε (TableDescription (List UInt8))) (skip : Bool)
        (paths : List Str) (groups : List (SchemaFingerprint × List Str)) (path path' : Str),
        groupTablesBySchema rawMessages describeTable skip paths [] = .ok groups →
        path ∈ paths → path' ∈ paths → describeTable path = .ok (indexedTable ['a']) →
        describeTable path' = .ok (indexedTable ['b']) →
        (InOneGroup groups path path' ↔ SameTypes (indexedTable ['a']) (indexedTable ['b'])) :=
  fingerprints_classify_types rawMessages_faithful (indexedTable_wellFormed (by simp))
    (indexedTable_wellFormed (by simp))

/-- An index on the key column and one on another column of its type are not
told apart. -/
theorem indexed_columns_not_told_apart :
    ¬ ∀ (τ : Type) (messages : TypeMessages τ) (d d' : TableDescription τ),
      messages.Faithful → d.WellFormed → d'.WellFormed →
      (schemaFingerprint messages d = schemaFingerprint messages d' ↔ SameStructure d d') := by
  intro h
  have hiff := h _ rawMessages (indexedTable ['a']) (indexedTable ['b']) rawMessages_faithful
    (indexedTable_wellFormed (by simp)) (indexedTable_wellFormed (by simp))
  obtain ⟨f, -, hkey, zs, hperm, hmatched⟩ := hiff.mp rfl
  obtain rfl := List.perm_singleton.mp hperm
  cases hmatched with
  | cons hindex _ =>
      have hkey : f ['a'] = ['a'] := List.singleton_inj.mp hkey
      have hcolumn : f ['a'] = ['b'] := List.singleton_inj.mp hindex.2.1
      rw [hkey] at hcolumn
      cases hcolumn

end Groups

end Schemas
end YdbSnippets
