import YdbSnippets.Tablets.SelectedObjects

/-!
# Selecting the tablets

The selection phase of `manage_tablets.py`: the objects that were discovered are
described by a pool of workers, and every tablet they report is selected once.
-/

namespace YdbSnippets
namespace Tablets

open Python Text Sorting Firsts Matching Viewer

section Fallback

variable (py : Interpreter) (printer : Printer) (html : HtmlLibrary) (pages : SchemeShardPages)

/-- `_HIDDEN_PATH_MARKERS` -/
def hiddenPathMarkers : List String :=
  ["pathnotfound", "patherrorunknown", "pathdoesnotexist", "statuspathdoesnotexist"]

/-- `is_hidden_path_error`, of the text of the value. -/
def isHiddenPathError (value : Str) : Bool :=
  let compact := (py.lower value).filter fun c => c.isDigit || ('a' ≤ c && c ≤ 'z')
  hiddenPathMarkers.any fun marker => occurs marker.toList compact

/-- `_SCHEME_ROLE` -/
def schemeRoles : List (String × String) :=
  [("TOPIC", "partition"), ("PERS_QUEUE_GROUP", "partition"), ("TABLE", "datashard"),
    ("COLUMN_TABLE", "columnshard"), ("COLUMN_STORE", "columnshard")]

/-- A tablet with a role in place of a blank one. -/
def TabletRec.fill (default : Str) (tablet : TabletRec) : TabletRec :=
  { tablet with role := if tablet.role = "shard".toList then default else tablet.role }

/-- `_tablets_for_scheme` -/
def tabletsForScheme (tablets : TabletMap) (schemeType : Str) : TabletMap :=
  match schemeRoles.find? fun entry => entry.1.toList == schemeType with
  | none => tablets
  | some entry =>
      Dict.ofItems (tablets.items.map fun item => (item.1, item.2.fill entry.2.toList))

/-- `tablets_when_describe_hides_path` -/
def tabletsWhenDescribeHidesPath (object : SchemeObject) : Except DescribeError TabletMap :=
  match fetchInflightTablets py html pages with
  | .error e => .error (.fallbackFailed e)
  | .ok byPath =>
      let tablets := byPath.getD (normalizePath object.path) Dict.empty
      if tablets.items = [] then .error .noShards
      else .ok (tabletsForScheme tablets object.schemeType)

end Fallback

section Collecting

variable (py : Interpreter) (printer : Printer) (html : HtmlLibrary) (pages : SchemeShardPages)
  (viewer : SchemeAnswers)

/-- `merge_objects` -/
def mergeObjects (objects extra : List SchemeObject) : List SchemeObject :=
  sortedBy SchemeObject.key
    (objects ++ firstsFrom SchemeObject.path (objects.map SchemeObject.path) extra)

/-- The status that a describe failed with. -/
def failedStatus (described : Json) : Json :=
  match described.get "Status" with
  | .ok status => status
  | .error _ => described

/-- The tablets of a description, or the error that is kept for it. -/
def tabletsOfDescription (schemeType : Str) (described : Json) : Except DescribeError TabletMap :=
  match tabletsFromDescribe py printer schemeType described with
  | .error e => .error (.builtin e)
  | .ok none => .error .noPayload
  | .ok (some tablets) => .ok tablets

/-- `collect_tablets_for_object` -/
def collectTabletsForObject (object : SchemeObject) : Except DescribeError TabletMap :=
  match viewer.describePath object.path [] with
  | .error exc =>
      if isHiddenPathError py exc.text then tabletsWhenDescribeHidesPath py html pages object
      else .error (.raised exc)
  | .ok described =>
      if describeIsSuccess printer described then
        tabletsOfDescription py printer object.schemeType described
      else if isHiddenPathError py ((failedStatus described).text printer) ||
          isHiddenPathError py (described.text printer) then
        tabletsWhenDescribeHidesPath py html pages object
      else .error (.status (failedStatus described))

/-- `Target` -/
structure Target where
  path : Str
  schemeType : Str
  tabletId : Int
  role : Str
  detail : Str
deriving DecidableEq, Repr

/-- `format_detail` -/
def formatDetail (tablet : TabletRec) : Str :=
  [','].intercalate ((sortedBy id tablet.parts).map printInt)

/-- `targets_from_object` -/
def targetsFromObject (object : SchemeObject) (tablets : TabletMap) : List Target :=
  (sortedBy Prod.fst tablets.items).map fun item =>
    ⟨object.path, object.schemeType, item.1, item.2.role, formatDetail item.2⟩

/-- The targets of an object, if its tablets are known. -/
def targetsOf (object : SchemeObject) : List Target :=
  match collectTabletsForObject py printer html pages viewer object with
  | .error _ => []
  | .ok tablets => targetsFromObject object tablets

/-- The error that is kept for an object. -/
def describeErrorOf (object : SchemeObject) : Option (Str × DescribeError) :=
  match collectTabletsForObject py printer html pages viewer object with
  | .error e => some (object.path, e)
  | .ok _ => none

/-- `(item.path, item.tablet_id)` -/
def Target.key (target : Target) : Str ×ₗ Int :=
  toLex (target.path, target.tabletId)

/-- `dedupe_targets` -/
def dedupeTargets (targets : List Target) : List Target :=
  firstsFrom Target.tabletId [] targets

end Collecting

section Main

/-- The order in which the workers of a pool complete their items. -/
structure CompletionOrder (α : Type) where
  arrange : List α → List α
  perm : ∀ items, (arrange items).Perm items

/-- What the selection phase hands over. -/
structure Selection where
  objects : List SchemeObject
  targets : List Target
  listingErrors : List (Str × DescribeError)
  describeErrors : List (Str × DescribeError)

variable (py : Interpreter) (printer : Printer) (html : HtmlLibrary) (pages : SchemeShardPages)
  (viewer : SchemeAnswers) (search : Search)

/-- The targets of the objects, in the order in which these are described. -/
def selectedTargets (described : List SchemeObject) : List Target :=
  dedupeTargets
    (sortedBy Target.key (described.flatMap (targetsOf py printer html pages viewer)))

/-- The objects with those of the nested discovery. -/
def withNested (collected : Collected) (nested : List Found) : List SchemeObject :=
  if collected.nestedTables = [] then collected.objects
  else mergeObjects collected.objects (Found.join nested).objects

/-- The selection, when the directories are collected. -/
def selectFrom (tablesDone : CompletionOrder Str) (objectsDone : CompletionOrder SchemeObject)
    (collected : Collected) : Except BuiltinError Selection := do
  let nested ← (tablesDone.arrange collected.nestedTables).mapM
    (discoverNestedForTable py printer viewer search)
  let objects := withNested collected nested
  let described := objectsDone.arrange objects
  return {
    objects := objects
    targets := selectedTargets py printer html pages viewer described
    listingErrors := collected.listingErrors ++ (Found.join nested).errors
    describeErrors := described.filterMap (describeErrorOf py printer html pages viewer) }

/-- The selection phase of `main`, or `none` if it is still walking after this
many turns. -/
def selectTablets (tablesDone : CompletionOrder Str) (objectsDone : CompletionOrder SchemeObject)
    (database : Str) (fuel : Nat) : Option (Except BuiltinError Selection) :=
  match resolveStartPath py printer viewer database search.pre with
  | .error e => some (.error e)
  | .ok start =>
      (collectObjects py printer viewer search start fuel).map fun result =>
        result.bind (selectFrom py printer html pages viewer search tablesDone objectsDone)

end Main

section Merging

variable {py : Interpreter} {printer : Printer} {viewer : SchemeAnswers} {search : Search}

theorem SchemeObject.key_injective : Function.Injective SchemeObject.key := by
  intro a b h
  obtain ⟨hpath, htype⟩ := Prod.mk.inj (toLex.injective h)
  cases a
  cases b
  cases hpath
  cases htype
  rfl

/-- The objects are merged in the same way from extras whose first objects of each
path are the same. -/
theorem mergeObjects_congr
    {objects extra extra' : List SchemeObject}
    (h : ∀ path, firstWith SchemeObject.path path extra =
      firstWith SchemeObject.path path extra') :
    mergeObjects objects extra = mergeObjects objects extra' := by
  refine sortedBy_eq_of_perm ((firstsFrom_perm _ h).append_left objects) ?_
  exact fun a _ b _ hkey => SchemeObject.key_injective hkey

/-- An object has one place in the merged list. -/
theorem nodup_mergeObjects
    {objects extra : List SchemeObject}
    (h : (objects.map SchemeObject.path).Nodup) :
    ((mergeObjects objects extra).map SchemeObject.path).Nodup := by
  unfold mergeObjects
  rw [((sortedBy_perm SchemeObject.key _).map SchemeObject.path).nodup_iff, List.map_append]
  refine List.nodup_append.mpr ⟨h, nodup_firstsFrom _ _ _, ?_⟩
  intro path hpath other hother heq
  rw [← heq] at hother
  exact (mem_keys_firstsFrom_iff.mp hother).1 hpath

/-- The first objects of the nested discovery are the same in whatever order the
tables are searched. -/
theorem firstWith_nested_perm
    {tables tables' : List Str} {nested nested' : List Found}
    (hperm : tables.Perm tables')
    (hfound : tables.mapM (discoverNestedForTable py printer viewer search) = .ok nested)
    (hfound' : tables'.mapM (discoverNestedForTable py printer viewer search) = .ok nested')
    (howner : ∀ table ∈ tables, IsOwner table)
    (hapart : ∀ table ∈ tables, ∀ other ∈ tables, ∀ path,
      Below table path → Below other path → table = other)
    (path : Str) :
    firstWith SchemeObject.path path (Found.join nested).objects =
      firstWith SchemeObject.path path (Found.join nested').objects := by
  let objectsOf : Str → List SchemeObject := fun table =>
    match discoverNestedForTable py printer viewer search table with
    | .ok found => found.objects
    | .error _ => []
  have hjoin : ∀ {tables : List Str} {nested : List Found},
      tables.mapM (discoverNestedForTable py printer viewer search) = .ok nested →
      (Found.join nested).objects = tables.flatMap objectsOf := by
    intro tables nested h
    have hrel := mapM_ok_iff.mp h
    unfold Found.join
    dsimp only
    clear h hfound hfound'
    induction hrel with
    | nil => rfl
    | cons hok _ ih =>
        rw [List.flatMap_cons, List.flatMap_cons, ih]
        simp only [objectsOf, hok]
  rw [hjoin hfound, hjoin hfound']
  have hbelow : ∀ table ∈ tables, ∀ object ∈ objectsOf table, Below table object.path := by
    intro table htable object hobject
    cases hok : discoverNestedForTable py printer viewer search table with
    | error e => simp [objectsOf, hok] at hobject
    | ok found =>
        simp only [objectsOf, hok] at hobject
        exact discoverNestedForTable_below (howner table htable) hok object hobject
  refine firstWith_flatMap_perm hperm ?_ path
  intro table htable other hother a ha b hb hkey
  refine hapart table htable other hother a.path (hbelow table htable a ha) ?_
  rw [hkey]
  exact hbelow other hother b hb

end Merging

section Targets

variable {py : Interpreter} {printer : Printer} {html : HtmlLibrary} {pages : SchemeShardPages}
  {viewer : SchemeAnswers}

theorem mem_targetsFromObject
    {object : SchemeObject} {tablets : TabletMap} {target : Target}
    (h : target ∈ targetsFromObject object tablets) :
    target.path = object.path ∧ ∃ tablet, (target.tabletId, tablet) ∈ tablets.items ∧
      target = ⟨object.path, object.schemeType, target.tabletId, tablet.role,
        formatDetail tablet⟩ := by
  obtain ⟨⟨tabletId, tablet⟩, hitem, rfl⟩ := List.mem_map.mp h
  exact ⟨rfl, tablet, mem_sortedBy.mp hitem, rfl⟩

theorem exists_target_iff
    {object : SchemeObject} {tablets : TabletMap} {t : Int} :
    (∃ target ∈ targetsFromObject object tablets, target.tabletId = t) ↔ t ∈ tablets.keys := by
  unfold targetsFromObject Dict.keys
  simp

/-- A target of a list of objects is determined by its path and its tablet. -/
theorem target_eq_of_key
    {objects : List SchemeObject}
    (hnodup : (objects.map SchemeObject.path).Nodup)
    {a b : Target}
    (ha : a ∈ objects.flatMap (targetsOf py printer html pages viewer))
    (hb : b ∈ objects.flatMap (targetsOf py printer html pages viewer))
    (hkey : a.key = b.key) :
    a = b := by
  obtain ⟨hpath, hid⟩ := Prod.mk.inj (toLex.injective hkey)
  obtain ⟨object, hobject, ha⟩ := List.mem_flatMap.mp ha
  obtain ⟨object', hobject', hb⟩ := List.mem_flatMap.mp hb
  unfold targetsOf at ha hb
  cases hcollect : collectTabletsForObject py printer html pages viewer object with
  | error e => simp [hcollect] at ha
  | ok tablets =>
      simp only [hcollect] at ha
      cases hcollect' : collectTabletsForObject py printer html pages viewer object' with
      | error e => simp [hcollect'] at hb
      | ok tablets' =>
          simp only [hcollect'] at hb
          obtain ⟨hpatha, tablet, hitem, heqa⟩ := mem_targetsFromObject ha
          obtain ⟨hpathb, tablet', hitem', heqb⟩ := mem_targetsFromObject hb
          obtain rfl : object = object' :=
            List.inj_on_of_nodup_map hnodup hobject hobject'
              (hpatha.symm.trans (hpath.trans hpathb))
          obtain rfl := Except.ok.inj (hcollect.symm.trans hcollect')
          rw [← hid] at hitem'
          have htablet := (Dict.mem_items_iff.mp hitem).symm.trans (Dict.mem_items_iff.mp hitem')
          obtain rfl := Option.some.inj htablet
          rw [heqa, heqb, hid]

/-- The targets do not depend on the order in which the objects are described. -/
theorem selectedTargets_perm
    {objects objects' : List SchemeObject}
    (hperm : objects.Perm objects')
    (hnodup : (objects.map SchemeObject.path).Nodup) :
    selectedTargets py printer html pages viewer objects =
      selectedTargets py printer html pages viewer objects' := by
  refine congrArg dedupeTargets (sortedBy_eq_of_perm (hperm.flatMap_right _) ?_)
  exact fun _ ha _ hb => target_eq_of_key hnodup ha hb

end Targets

section Timing

variable {py : Interpreter} {printer : Printer} {html : HtmlLibrary} {pages : SchemeShardPages}
  {viewer : SchemeAnswers} {search : Search}

/-- The describe answers that its path is gone. -/
def DescribesAsGone (py : Interpreter) (printer : Printer) : Except PyException Json → Prop
  | .error exc => isHiddenPathError py exc.text = true
  | .ok described =>
      describeIsSuccess printer described = false ∧
        (isHiddenPathError py ((failedStatus described).text printer) ||
          isHiddenPathError py (described.text printer)) = true

/-- The describe of the object succeeded, and this tablet is extracted from it. -/
def ObjectReports
    (py : Interpreter) (printer : Printer) (viewer : SchemeAnswers) (object : SchemeObject)
    (t : Int) : Prop :=
  ∃ described extractor tablets,
    viewer.describePath object.path [] = .ok described ∧
    describeIsSuccess printer described = true ∧
    extractorOf object.schemeType = some extractor ∧
    extractor.run py printer described = .ok (some tablets) ∧
    Reports py printer extractor described t

/-- Every listing is read, and so is every answer to the nested discovery. -/
structure AnswersRead
    (py : Interpreter) (printer : Printer) (viewer : SchemeAnswers) (search : Search) : Prop where
  listings : ∀ path data, viewer.listDirectory path = .ok data →
    ∃ listing, readListing py printer data = .ok listing
  nested : ∀ table, ∃ found,
    discoverNestedForTable py printer viewer search table = .ok found

/-- Without the fallback, the tablets of an object come from its description. -/
theorem collectTabletsForObject_ok_iff
    {object : SchemeObject} {tablets : TabletMap}
    (hpresent : ¬ DescribesAsGone py printer (viewer.describePath object.path [])) :
    collectTabletsForObject py printer html pages viewer object = .ok tablets ↔
      ∃ described, viewer.describePath object.path [] = .ok described ∧
        describeIsSuccess printer described = true ∧
        tabletsOfDescription py printer object.schemeType described = .ok tablets := by
  unfold collectTabletsForObject
  unfold DescribesAsGone at hpresent
  cases hanswer : viewer.describePath object.path [] with
  | error exc =>
      rw [hanswer] at hpresent
      simp [hpresent]
  | ok described =>
      rw [hanswer] at hpresent
      cases hsuccess : describeIsSuccess printer described with
      | false =>
          have hshown := fun h => hpresent ⟨hsuccess, h⟩
          simp only [hsuccess, Bool.false_eq_true, if_false, if_neg hshown]
          simp [hsuccess]
      | true => simp [hsuccess]

theorem tabletsOfDescription_ok_iff
    {schemeType : Str} {described : Json} {tablets : TabletMap} :
    tabletsOfDescription py printer schemeType described = .ok tablets ↔
      ∃ extractor, extractorOf schemeType = some extractor ∧
        extractor.run py printer described = .ok (some tablets) := by
  unfold tabletsOfDescription tabletsFromDescribe
  cases extractorOf schemeType with
  | none => simp
  | some extractor =>
      cases hrun : extractor.run py printer described with
      | error e => simp [hrun]
      | ok found =>
          cases found with
          | none => simp [hrun]
          | some found => simp [hrun]

/-- Without the fallback, an object has the tablets that its description lists. -/
theorem exists_targetOf_iff
    {object : SchemeObject} {t : Int}
    (hpresent : ¬ DescribesAsGone py printer (viewer.describePath object.path [])) :
    (∃ target ∈ targetsOf py printer html pages viewer object, target.tabletId = t) ↔
      ObjectReports py printer viewer object t := by
  have htargets : (∃ target ∈ targetsOf py printer html pages viewer object,
      target.tabletId = t) ↔
        ∃ tablets, collectTabletsForObject py printer html pages viewer object = .ok tablets ∧
          t ∈ tablets.keys := by
    unfold targetsOf
    cases collectTabletsForObject py printer html pages viewer object with
    | error e => simp
    | ok tablets =>
        rw [exists_target_iff]
        simp
  rw [htargets]
  constructor
  · rintro ⟨tablets, hcollect, hmem⟩
    obtain ⟨described, hanswer, hsuccess, hok⟩ :=
      (collectTabletsForObject_ok_iff hpresent).mp hcollect
    obtain ⟨extractor, hextractor, hrun⟩ := tabletsOfDescription_ok_iff.mp hok
    exact ⟨described, extractor, tablets, hanswer, hsuccess, hextractor, hrun,
      (mem_keys_extracted hrun t).mp hmem⟩
  · rintro ⟨described, extractor, tablets, hanswer, hsuccess, hextractor, hrun, hreports⟩
    refine ⟨tablets, ?_, (mem_keys_extracted hrun t).mpr hreports⟩
    exact (collectTabletsForObject_ok_iff hpresent).mpr
      ⟨described, hanswer, hsuccess, tabletsOfDescription_ok_iff.mpr ⟨extractor, hextractor, hrun⟩⟩

theorem path_of_mem_targetsOf
    {object : SchemeObject} {target : Target}
    (h : target ∈ targetsOf py printer html pages viewer object) :
    target.path = object.path := by
  unfold targetsOf at h
  split at h
  · cases h
  · exact (mem_targetsFromObject h).1

/-- The objects of a selection have different paths. -/
theorem nodup_withNested
    {queue seen : List Str} {visits : List Visit} {nested : List Found} :
    ((withNested (gathered queue seen visits).result nested).map SchemeObject.path).Nodup := by
  have hnodup : ((gathered queue seen visits).result.objects.map SchemeObject.path).Nodup :=
    nodup_firstsFrom _ _ _
  unfold withNested
  split
  · exact hnodup
  · exact nodup_mergeObjects hnodup

/-- The objects are merged in order, also if there was nothing to search. -/
theorem withNested_eq_mergeObjects
    {queue seen : List Str} {visits : List Visit} {nested : List Found}
    (hnested : (gathered queue seen visits).result.nestedTables = [] → nested = []) :
    withNested (gathered queue seen visits).result nested =
      mergeObjects (gathered queue seen visits).result.objects (Found.join nested).objects := by
  unfold withNested
  split
  · next hnone =>
      have hascending : Ascending SchemeObject.key (gathered queue seen visits).result.objects :=
        (ascending_sortedBy SchemeObject.key _).sublist (firstsFrom_sublist _ _ _)
      have hempty : (Found.join nested).objects = [] := by
        rw [hnested hnone]
        rfl
      rw [hempty, mergeObjects, firstsFrom, List.append_nil, sortedBy_eq_self hascending]
  · rfl

/-- No path is below two of the collected tables, and each of them is an owner. -/
structure TablesApart (collected : Collected) : Prop where
  owner : ∀ table ∈ collected.nestedTables, IsOwner table
  apart : ∀ table ∈ collected.nestedTables, ∀ other ∈ collected.nestedTables, ∀ path,
    Below table path → Below other path → table = other

/-- The orders in which the workers complete do not matter. -/
theorem selectFrom_of_nested
    (py : Interpreter) (printer : Printer) (html : HtmlLibrary) (pages : SchemeShardPages)
    (viewer : SchemeAnswers) (search : Search) {collected : Collected}
    (hnodup : ∀ nested, ((withNested collected nested).map SchemeObject.path).Nodup)
    (hapart : TablesApart collected) {nested : List Found}
    (hnested : collected.nestedTables.mapM
      (discoverNestedForTable py printer viewer search) = .ok nested)
    (tablesDone : CompletionOrder Str) (objectsDone : CompletionOrder SchemeObject) :
    ∃ selection,
      selectFrom py printer html pages viewer search tablesDone objectsDone collected =
        .ok selection ∧
      selection.objects = withNested collected nested ∧
      selection.targets =
        selectedTargets py printer html pages viewer (withNested collected nested) := by
  have hperm := tablesDone.perm collected.nestedTables
  cases hdone : (tablesDone.arrange collected.nestedTables).mapM
      (discoverNestedForTable py printer viewer search) with
  | error e =>
      obtain ⟨table, htable, herror⟩ := mapM_error_iff.mp ⟨e, hdone⟩
      obtain ⟨e', hmap⟩ := mapM_error_iff.mpr ⟨table, hperm.mem_iff.mp htable, herror⟩
      rw [hnested] at hmap
      cases hmap
  | ok nested' =>
      have hsame : withNested collected nested' = withNested collected nested := by
        unfold withNested
        rw [mergeObjects_congr]
        exact firstWith_nested_perm hperm hdone hnested
          (fun table htable => hapart.owner table (hperm.mem_iff.mp htable))
          (fun table htable other hother => hapart.apart table (hperm.mem_iff.mp htable) other
            (hperm.mem_iff.mp hother))
      refine ⟨_, by rw [selectFrom, hdone]; rfl, hsame, ?_⟩
      rw [hsame, selectedTargets_perm (objectsDone.perm _)]
      exact ((objectsDone.perm _).map SchemeObject.path).nodup_iff.mpr (hnodup nested)

/-- If the nested discovery fails, it fails in every order. -/
theorem selectFrom_of_nested_error
    (py : Interpreter) (printer : Printer) (html : HtmlLibrary) (pages : SchemeShardPages)
    (viewer : SchemeAnswers) (search : Search) {collected : Collected} {e : BuiltinError}
    (hnested : collected.nestedTables.mapM
      (discoverNestedForTable py printer viewer search) = .error e)
    (tablesDone : CompletionOrder Str) (objectsDone : CompletionOrder SchemeObject) :
    ∃ e', selectFrom py printer html pages viewer search tablesDone objectsDone collected =
      .error e' := by
  obtain ⟨table, htable, herror⟩ := mapM_error_iff.mp ⟨e, hnested⟩
  obtain ⟨e', hmap⟩ := mapM_error_iff.mpr
    ⟨table, (tablesDone.perm collected.nestedTables).mem_iff.mpr htable, herror⟩
  exact ⟨e', by rw [selectFrom, hmap]; rfl⟩

/-- The targets of objects: every tablet that an object reports, once, and under the
smallest path that reports it. -/
theorem selected_targets_spec
    (html : HtmlLibrary) (pages : SchemeShardPages) (objects : List SchemeObject)
    (hpresent : ∀ path, ¬ DescribesAsGone py printer (viewer.describePath path [])) :
    ((selectedTargets py printer html pages viewer objects).map Target.tabletId).Nodup ∧
      (∀ t, t ∈ (selectedTargets py printer html pages viewer objects).map Target.tabletId ↔
        ∃ object ∈ objects, ObjectReports py printer viewer object t) ∧
      ∀ target ∈ selectedTargets py printer html pages viewer objects,
        (∃ object ∈ objects, object.path = target.path ∧
          ObjectReports py printer viewer object target.tabletId) ∧
        ∀ object ∈ objects, ObjectReports py printer viewer object target.tabletId →
          target.path ≤ object.path := by
  unfold selectedTargets
  generalize hcollected : objects.flatMap (targetsOf py printer html pages viewer) = collected
  have hreports : ∀ t, (∃ target ∈ collected, target.tabletId = t) ↔
      ∃ object ∈ objects, ObjectReports py printer viewer object t := by
    intro t
    rw [← hcollected]
    constructor
    · rintro ⟨target, htarget, hid⟩
      obtain ⟨object, hobject, hmem⟩ := List.mem_flatMap.mp htarget
      exact ⟨object, hobject, (exists_targetOf_iff (hpresent _)).mp ⟨target, hmem, hid⟩⟩
    · rintro ⟨object, hobject, hreport⟩
      obtain ⟨target, hmem, hid⟩ := (exists_targetOf_iff (hpresent _)).mpr hreport
      exact ⟨target, List.mem_flatMap.mpr ⟨object, hobject, hmem⟩, hid⟩
  refine ⟨nodup_firstsFrom _ _ _, ?_, ?_⟩
  · intro t
    rw [← hreports]
    unfold dedupeTargets
    rw [mem_keys_firstsFrom_iff]
    simp
  · intro target htarget
    have hmem : target ∈ collected :=
      mem_sortedBy.mp ((firstsFrom_sublist _ _ _).subset htarget)
    constructor
    · rw [← hcollected] at hmem
      obtain ⟨object, hobject, hof⟩ := List.mem_flatMap.mp hmem
      exact ⟨object, hobject, (path_of_mem_targetsOf hof).symm,
        (exists_targetOf_iff (hpresent _)).mp ⟨target, hof, rfl⟩⟩
    · intro object hobject hreport
      obtain ⟨other, hof, hid⟩ := (exists_targetOf_iff (hpresent _)).mpr hreport
      have hother : other ∈ sortedBy Target.key collected := by
        rw [mem_sortedBy, ← hcollected]
        exact List.mem_flatMap.mpr ⟨object, hobject, hof⟩
      have hle : target.key ≤ other.key :=
        rel_of_mem_firstsFrom (r := fun a b : Target => a.key ≤ b.key) (fun a => le_refl a.key)
          (ascending_sortedBy Target.key collected) htarget hother hid
      rw [← path_of_mem_targetsOf hof]
      rcases Prod.Lex.le_iff.mp hle with hlt | ⟨heq, -⟩
      · exact le_of_lt hlt
      · exact le_of_eq heq

/-- Every listing is read. -/
def ListingsRead (py : Interpreter) (printer : Printer) (viewer : SchemeAnswers) : Prop :=
  ∀ path data, viewer.listDirectory path = .ok data →
    ∃ listing, readListing py printer data = .ok listing

theorem visit_ne_error
    (hread : ListingsRead py printer viewer) {path : Str} {e : BuiltinError} :
    visit py printer viewer search path ≠ .error e := by
  intro h
  unfold visit at h
  cases hlist : viewer.listDirectory path with
  | error exc =>
      rw [hlist] at h
      cases h
  | ok data =>
      obtain ⟨listing, hlisting⟩ := hread path data hlist
      rw [hlist] at h
      simp only [hlisting, bind, Except.bind] at h
      cases h

theorem exists_resolveStartPath
    (hread : ListingsRead py printer viewer) (database : Str) (pre : Option Str) :
    ∃ start, resolveStartPath py printer viewer database pre = .ok start := by
  have hwalkable : ∀ candidate, ∃ walkable,
      isWalkable py printer viewer candidate = .ok walkable := by
    intro candidate
    unfold isWalkable
    cases hlist : viewer.listDirectory candidate with
    | error exc => exact ⟨false, rfl⟩
    | ok data =>
        obtain ⟨listing, hlisting⟩ := hread candidate data hlist
        obtain ⟨items, -, hlisting⟩ := bind_ok_iff.mp hlisting
        obtain ⟨selfType, hself, -⟩ := bind_ok_iff.mp hlisting
        exact ⟨_, by simp only [hself]; rfl⟩
  have hfrom : ∀ candidate, ∃ start,
      resolveFrom py printer viewer database candidate = .ok start := by
    intro candidate
    induction hlength : candidate.length using Nat.strongRecOn generalizing candidate with
    | ind n ih =>
        obtain ⟨walkable, hok⟩ := hwalkable candidate
        rw [resolveFrom, hok]
        cases walkable with
        | true => exact ⟨candidate, rfl⟩
        | false =>
            by_cases hend : parentPath candidate = [] ∨ parentPath candidate = candidate ∨
                (parentPath candidate).length < database.length
            · exact ⟨database, by simp only [bind, Except.bind, if_pos hend]; rfl⟩
            · obtain ⟨start, hstart⟩ := ih _
                (hlength ▸ length_parentPath_lt fun h => hend (Or.inr (Or.inl h))) _ rfl
              exact ⟨start, by simp only [bind, Except.bind, if_neg hend]; exact hstart⟩
  cases pre with
  | none => exact ⟨database, rfl⟩
  | some pre =>
      by_cases heq : pre = database
      · exact ⟨database, if_pos heq⟩
      · obtain ⟨start, hstart⟩ := hfrom pre
        exact ⟨start, (if_neg heq).trans hstart⟩

theorem tablesApart_gathered
    (hnames : NamesListed py printer viewer) (hleaves : TablesAreLeaves py printer viewer)
    {start : Str} {paths : List Str} {visits : List Visit}
    (hreach : ∀ path, path ∈ paths ↔
      Worklist.Reaches (nextOf py printer viewer search) start path)
    (hvisited : Visited py printer viewer search paths visits) :
    TablesApart (gathered [] paths visits).result where
  owner table htable := by
    obtain ⟨_, _, hat⟩ := (mem_nestedTables_iff hnames hreach hvisited).mp htable
    exact hat.isOwner hnames
  apart table htable other hother path := by
    obtain ⟨_, _, hat⟩ := (mem_nestedTables_iff hnames hreach hvisited).mp htable
    obtain ⟨_, _, hat'⟩ := (mem_nestedTables_iff hnames hreach hvisited).mp hother
    exact hat.apart hnames hleaves hat'

/-- The visits show the listed objects. -/
theorem mem_visits_objects_iff
    (hnames : NamesListed py printer viewer)
    {start : Str} {paths : List Str} {visits : List Visit}
    (hreach : ∀ path, path ∈ paths ↔
      Worklist.Reaches (nextOf py printer viewer search) start path)
    (hvisited : Visited py printer viewer search paths visits) {object : SchemeObject} :
    object ∈ visits.flatMap Visit.objects ↔
      ListedObject py printer viewer search start object := by
  rw [mem_visits_iff (fun _ hobjects _ => hobjects) hnames hreach hvisited]
  refine exists_congr fun names => exists_congr fun listing => and_congr_right fun hwalked =>
    and_congr_right fun hlists => ?_
  have hjoin : ∀ name, joinPath (pathBelow start names) name = pathBelow start (names ++ [name]) :=
    joinPath_pathBelow (hwalked.isName hnames)
  have hselects : ∀ path schemeType, search.selects path schemeType = true ↔
      schemeType ∈ search.schemeTypes ∧ pathMatchesPrefix path search.pre = true := by
    intro path schemeType
    rw [Search.selects, Bool.and_eq_true, decide_eq_true_eq]
  simp only [Search.visitListing, List.mem_append, List.mem_map, List.mem_filter, hjoin]
  constructor
  · rintro (hself | ⟨child, ⟨hchild, hselected⟩, rfl⟩)
    · split at hself
      · next hselected =>
          rw [List.mem_singleton.mp hself]
          exact ⟨Or.inl rfl, (hselects _ _).mp hselected⟩
      · cases hself
    · exact ⟨Or.inr ⟨child, hchild, rfl⟩, (hselects _ _).mp hselected⟩
  · rintro ⟨rfl | ⟨child, hchild, rfl⟩, hselected⟩
    · rw [if_pos ((hselects _ _).mpr hselected)]
      exact Or.inl (List.mem_singleton.mpr rfl)
    · exact Or.inr ⟨child, ⟨hchild, (hselects _ _).mpr hselected⟩, rfl⟩

/-- The objects that are handed over are the listed and the nested ones. -/
theorem selects_withNested
    (hnames : NamesListed py printer viewer)
    {start : Str} {paths : List Str} {visits : List Visit} {nested : List Found}
    (hreach : ∀ path, path ∈ paths ↔
      Worklist.Reaches (nextOf py printer viewer search) start path)
    (hvisited : Visited py printer viewer search paths visits)
    (hnested : (gathered [] paths visits).result.nestedTables.mapM
      (discoverNestedForTable py printer viewer search) = .ok nested) :
    Selects py printer viewer search start
      (withNested (gathered [] paths visits).result nested) := by
  have hlisted := fun object => @mem_visits_objects_iff py printer viewer search hnames start paths
    visits hreach hvisited object
  have hfirst : ∀ object, object ∈ (gathered [] paths visits).result.objects ↔
      ListedObject py printer viewer search start object ∧
        ∀ other, ListedObject py printer viewer search start other → other.path = object.path →
          object.key ≤ other.key := by
    intro object
    simp only [← hlisted]
    exact mem_firstsFrom_sortedBy_iff SchemeObject.key_injective
  have hpath : ∀ object, ListedObject py printer viewer search start object →
      object.path ∈ (gathered [] paths visits).result.objects.map SchemeObject.path := by
    intro object hobject
    refine mem_keys_firstsFrom_iff.mpr ⟨List.not_mem_nil, ?_⟩
    exact List.mem_map_of_mem (mem_sortedBy.mpr ((hlisted object).mpr hobject))
  have hfound : ∀ object, object ∈ (Found.join nested).objects ↔
      NestedObject py printer viewer search start object := by
    intro object
    rw [mem_join_mapM_iff hnested fun table _ found => mem_discoverNestedForTable_iff]
    simp only [mem_nestedTables_iff hnames hreach hvisited, NestedObject]
    constructor
    · rintro ⟨table, ⟨names, name, hat⟩, hbelow⟩
      exact ⟨names, name, table, hat, hbelow⟩
    · rintro ⟨names, name, table, hat, hbelow⟩
      exact ⟨table, ⟨names, name, hat⟩, hbelow⟩
  have hnodup := @nodup_withNested [] paths visits nested
  have hmerged : withNested (gathered [] paths visits).result nested =
      mergeObjects (gathered [] paths visits).result.objects (Found.join nested).objects := by
    refine withNested_eq_mergeObjects fun hnone => ?_
    rw [hnone] at hnested
    cases hnested
    rfl
  rw [hmerged] at hnodup ⊢
  have hmem : ∀ object, object ∈
      mergeObjects (gathered [] paths visits).result.objects (Found.join nested).objects ↔
        object ∈ (gathered [] paths visits).result.objects ∨
          object ∈ firstsFrom SchemeObject.path
            ((gathered [] paths visits).result.objects.map SchemeObject.path)
            (Found.join nested).objects := by
    intro object
    rw [mergeObjects, mem_sortedBy, List.mem_append]
  constructor
  · intro object hobject
    rcases (hmem object).mp hobject with hobject | hobject
    · exact Or.inl ((hfirst object).mp hobject).1
    · exact Or.inr ((hfound object).mp ((firstsFrom_sublist _ _ _).subset hobject))
  · intro object hobject
    have hkey : object.path ∈
        (gathered [] paths visits).result.objects.map SchemeObject.path ∨
          object.path ∈ (firstsFrom SchemeObject.path
            ((gathered [] paths visits).result.objects.map SchemeObject.path)
            (Found.join nested).objects).map SchemeObject.path := by
      by_cases hseen : object.path ∈
          (gathered [] paths visits).result.objects.map SchemeObject.path
      · exact Or.inl hseen
      · have hbelow := hobject.resolve_left fun hlisted => hseen (hpath object hlisted)
        exact Or.inr (mem_keys_firstsFrom_iff.mpr
          ⟨hseen, List.mem_map_of_mem ((hfound object).mpr hbelow)⟩)
    rcases hkey with hkey | hkey
    · obtain ⟨other, hother, heq⟩ := List.mem_map.mp hkey
      exact ⟨other, (hmem other).mpr (Or.inl hother), heq⟩
    · obtain ⟨other, hother, heq⟩ := List.mem_map.mp hkey
      exact ⟨other, (hmem other).mpr (Or.inr hother), heq⟩
  · intro object hobject other hother heq
    rcases (hmem object).mp hobject with hobject | hobject
    · obtain ⟨hlisted, hleast⟩ := (hfirst object).mp hobject
      refine ⟨hlisted, ?_⟩
      rcases Prod.Lex.le_iff.mp (hleast other hother heq) with hlt | ⟨-, hle⟩
      · have hbefore : object.path < other.path := hlt
        rw [heq] at hbefore
        exact absurd hbefore (lt_irrefl object.path)
      · exact hle
    · exact absurd (heq ▸ hpath other hother) (mem_firstsFrom_iff.mp hobject).1
  · have hascending := ascending_sortedBy SchemeObject.key
      ((gathered [] paths visits).result.objects ++ firstsFrom SchemeObject.path
        ((gathered [] paths visits).result.objects.map SchemeObject.path)
        (Found.join nested).objects)
    have hne : (mergeObjects (gathered [] paths visits).result.objects
        (Found.join nested).objects).Pairwise fun a b => a.path ≠ b.path :=
      List.pairwise_map.mp hnodup
    refine (hascending.and hne).imp ?_
    rintro a b ⟨hle, hne⟩
    rcases Prod.Lex.le_iff.mp hle with hlt | ⟨heq, -⟩
    · exact hlt
    · exact absurd heq hne

/-- What is selected when the walk is over. -/
theorem selectTablets_of_collected
    {database start : Str} {fuel : Nat} {collected : Except BuiltinError Collected}
    (hstart : resolveStartPath py printer viewer database search.pre = .ok start)
    (hcollect : collectObjects py printer viewer search start fuel = some collected)
    (tablesDone : CompletionOrder Str) (objectsDone : CompletionOrder SchemeObject) :
    selectTablets py printer html pages viewer search tablesDone objectsDone database fuel =
      some (collected.bind
        (selectFrom py printer html pages viewer search tablesDone objectsDone)) := by
  rw [selectTablets, hstart]
  simp only [hcollect, Option.map_some]

/-- Where no table is searched, the objects of the walk are selected and described. -/
theorem selectTablets_of_no_tables
    (html : HtmlLibrary) (pages : SchemeShardPages) {database start : Str} {fuel : Nat}
    {objects : List SchemeObject}
    (hstart : resolveStartPath py printer viewer database search.pre = .ok start)
    (hcollect : (collectObjects py printer viewer search start fuel).map (fun run =>
      run.toOption.map fun collected => (collected.objects, collected.nestedTables)) =
        some (some (objects, [])))
    (tablesDone : CompletionOrder Str) (objectsDone : CompletionOrder SchemeObject) :
    ∃ selection,
      selectTablets py printer html pages viewer search tablesDone objectsDone database fuel =
        some (.ok selection) ∧
      selection.objects = objects ∧
      selection.targets =
        selectedTargets py printer html pages viewer (objectsDone.arrange objects) := by
  obtain ⟨run, hrun, hcollected⟩ := Option.map_eq_some_iff.mp hcollect
  cases run with
  | error e => cases hcollected
  | ok collected =>
      obtain ⟨rfl, htables⟩ := Prod.mk.inj (Option.some.inj hcollected)
      have hnone : tablesDone.arrange collected.nestedTables = [] := by
        rw [htables]
        exact (tablesDone.perm []).eq_nil
      have hobjects : withNested collected [] = collected.objects := if_pos htables
      obtain ⟨selection, hok, hselected, htargets⟩ : ∃ selection,
          selectFrom py printer html pages viewer search tablesDone objectsDone collected =
            .ok selection ∧
          selection.objects = withNested collected [] ∧
          selection.targets = selectedTargets py printer html pages viewer
            (objectsDone.arrange (withNested collected [])) := by
        rw [selectFrom, hnone]
        exact ⟨_, rfl, rfl, rfl⟩
      rw [hobjects] at hselected htargets
      refine ⟨selection, ?_, hselected, htargets⟩
      rw [selectTablets_of_collected hstart hrun]
      exact congrArg some hok

/-- The listing of a database with these topics. -/
def topicsListing (names : List Str) : Json :=
  .obj [("self", .obj [("type", .str "DATABASE".toList)]),
    ("children", .arr (names.map fun name =>
      .obj [("name", .str name), ("type", .str "TOPIC".toList)]))]

/-- The database has no other object. -/
def topicsAnswers
    (database : Str) (names : List Str) (describe : Str → Except PyException Json) :
    SchemeAnswers where
  listDirectory path :=
    if path = database then .ok (topicsListing names) else .error ⟨.httpError, []⟩
  describePath path _ := describe path

/-- The partitions of a topic have these tablets. -/
def partitionsOn (tablets : List Int) : Json :=
  .obj [("Status", .str "StatusSuccess".toList), ("PathDescription",
    .obj [("PersQueueGroup", .obj [("Partitions",
      .arr (tablets.map fun tablet => .obj [("TabletId", .int tablet)]))])])]

def plainPrinter : Printer where
  repr _ := []
  upper := List.map asciiUpper

variable {database : Str} {names : List Str} {describe : Str → Except PyException Json}

theorem readListing_topics
    (hnames : ∀ name ∈ names, name ≠ []) :
    readListing asciiInterpreter plainPrinter (topicsListing names) =
      .ok ⟨"DATABASE".toList, names.map fun name => ⟨name, "TOPIC".toList⟩⟩ := by
  have hchildren : (names.map fun name =>
        (.obj [("name", .str name), ("type", .str "TOPIC".toList)] : Json)).mapM
          (readChild asciiInterpreter plainPrinter) =
      .ok (names.map fun name => some ⟨name, "TOPIC".toList⟩) := by
    induction names with
    | nil => rfl
    | cons name rest ih =>
        have hread : readChild asciiInterpreter plainPrinter
            (.obj [("name", .str name), ("type", .str "TOPIC".toList)]) =
              .ok (some ⟨name, "TOPIC".toList⟩) := by
          cases name with
          | nil => exact absurd rfl (hnames _ (List.mem_cons_self ..))
          | cons c name => rfl
        simp only [List.map_cons, List.mapM_cons, hread,
          ih fun other hother => hnames other (List.mem_cons_of_mem _ hother)]
        rfl
  have hitems : iterChildren (topicsListing names) = .ok (names.map fun name =>
      .obj [("name", .str name), ("type", .str "TOPIC".toList)]) := by
    cases names <;> rfl
  have hself : directorySelfType asciiInterpreter plainPrinter (topicsListing names) =
      .ok "DATABASE".toList := by
    rfl
  unfold readListing
  rw [hitems, hself]
  simp only [bind, Except.bind, hchildren, List.reduceOption, List.filterMap_map,
    Function.id_comp]
  exact congrArg Except.ok (congrArg (Listing.mk _) (congrFun List.filterMap_eq_map names))

theorem lists_topicsAnswers
    (hnames : ∀ name ∈ names, name ≠ []) {path : Str} {listing : Listing}
    (h : Lists asciiInterpreter plainPrinter (topicsAnswers database names describe) path listing) :
    path = database ∧
      listing = ⟨"DATABASE".toList, names.map fun name => ⟨name, "TOPIC".toList⟩⟩ := by
  obtain ⟨data, hdata, hlisting⟩ := h
  unfold topicsAnswers at hdata
  dsimp only at hdata
  split at hdata
  · next hpath =>
      cases hdata
      exact ⟨hpath, Except.ok.inj (hlisting.symm.trans (readListing_topics hnames))⟩
  · cases hdata

theorem finitelyListed_topicsAnswers :
    FinitelyListed (topicsAnswers database names describe) := by
  refine ⟨[database], fun path data hdata => ?_⟩
  unfold topicsAnswers at hdata
  dsimp only at hdata
  split at hdata
  · next hpath => exact List.mem_singleton.mpr hpath
  · cases hdata

/-- The workers complete in the order in which they were started. -/
def CompletionOrder.asStarted {α : Type} : CompletionOrder α where
  arrange := id
  perm _ := List.Perm.refl _

/-- The topics of a database with two topics. -/
def twoTopics : List SchemeObject :=
  [⟨"/db/a".toList, "TOPIC".toList⟩, ⟨"/db/t".toList, "TOPIC".toList⟩]

theorem collectObjects_twoTopics
    {fuel : Nat}
    (hfuel : 1 ≤ fuel) :
    (collectObjects asciiInterpreter plainPrinter
      (topicsAnswers "/db".toList [['a'], ['t']] describe) ⟨topicSchemeTypes, none, false⟩
      "/db".toList fuel).map (fun run =>
        run.toOption.map fun collected => (collected.objects, collected.nestedTables)) =
      some (some (twoTopics, [])) := by
  have hloop : collectLoop asciiInterpreter plainPrinter
      (topicsAnswers "/db".toList [['a'], ['t']] describe) ⟨topicSchemeTypes, none, false⟩ 1
      ⟨["/db".toList], [], [], [], []⟩ = some (.ok ⟨[], ["/db".toList], twoTopics, [], []⟩) := by
    rfl
  have hsorted : sortedBy SchemeObject.key twoTopics = twoTopics :=
    sortedBy_eq_self (by unfold Ascending; decide +kernel)
  have hnone : sortedBy id ([] : List Str) = [] := sortedBy_eq_self List.Pairwise.nil
  rw [collectObjects, collectLoop_mono hloop hfuel]
  simp only [Option.map_some, Except.map, Except.toOption, CollectState.result, hsorted,
    List.eraseDups_nil, hnone]
  rfl

/-- Both topics report the tablet 77. -/
def sharedTabletAnswers : SchemeAnswers :=
  topicsAnswers "/db".toList [['a'], ['t']] fun path =>
    if path = "/db/a".toList then .ok (partitionsOn [77])
    else if path = "/db/t".toList then .ok (partitionsOn [77, 78])
    else .error ⟨.httpError, []⟩

theorem selectedTargets_sharedTabletAnswers :
    selectedTargets asciiInterpreter plainPrinter plainHtml dropPages sharedTabletAnswers
      twoTopics = [⟨"/db/a".toList, "TOPIC".toList, 77, "partition".toList, []⟩,
        ⟨"/db/t".toList, "TOPIC".toList, 78, "partition".toList, []⟩] := by
  have hdetail : formatDetail ⟨"partition".toList, []⟩ = [] := by
    rw [formatDetail, sortedBy_eq_self List.Pairwise.nil]
    rfl
  have hreports : ∀ (path : Str) (tabletIds : List Int), Ascending id tabletIds →
      (collectTabletsForObject asciiInterpreter plainPrinter plainHtml dropPages
        sharedTabletAnswers ⟨path, "TOPIC".toList⟩).toOption.map Dict.items =
          some (tabletIds.map fun tabletId => (tabletId, ⟨"partition".toList, []⟩)) →
      targetsOf asciiInterpreter plainPrinter plainHtml dropPages sharedTabletAnswers
        ⟨path, "TOPIC".toList⟩ = tabletIds.map fun tabletId =>
          ⟨path, "TOPIC".toList, tabletId, "partition".toList, []⟩ := by
    intro path tabletIds hascending hcollected
    unfold targetsOf
    cases htablets : collectTabletsForObject asciiInterpreter plainPrinter plainHtml dropPages
        sharedTabletAnswers ⟨path, "TOPIC".toList⟩ with
    | error e =>
        rw [htablets] at hcollected
        cases hcollected
    | ok tablets =>
        rw [htablets] at hcollected
        have hitems : tablets.items = _ := Option.some.inj hcollected
        have hsorted : sortedBy Prod.fst tablets.items = tablets.items :=
          sortedBy_eq_self (hitems ▸ List.pairwise_map.mpr hascending)
        simp only [targetsFromObject, hsorted]
        simp only [hitems, List.map_map, Function.comp_def, hdetail]
  have ha := hreports "/db/a".toList [77] (by unfold Ascending; decide) (by rfl)
  have ht := hreports "/db/t".toList [77, 78] (by unfold Ascending; decide) (by rfl)
  simp only [selectedTargets, twoTopics, List.flatMap_cons, ha, ht, List.flatMap_nil]
  rw [sortedBy_eq_self (by unfold Ascending; decide +kernel)]
  rfl

end Timing

end Tablets
end YdbSnippets
