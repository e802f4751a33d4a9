import YdbSnippets.Tablets.Walks

/-!
# The objects that are selected

What is selected, said of the answers of the viewer: the objects that the listings
of the walked directories show, and below the tables of the walk the tables of
their indexes and the topics of their changefeeds.
-/

namespace YdbSnippets
namespace Tablets

open Python Text Sorting Firsts Matching

section Answers

variable (py : Interpreter) (printer : Printer) (viewer : SchemeAnswers) (search : Search)

/-- The viewer describes the path. -/
def Described (path : Str) (described : Json) : Prop :=
  viewer.describePath path cdcDescribeQuery = .ok described ∧
    describeIsSuccess printer described = true

/-- The entry has a name, and this is its path below the owner. -/
def EntryAt (owner : Str) (entry : Json) (path : Str) : Prop :=
  ∃ name, entryName printer entry = .ok name ∧ name ≠ [] ∧ path = joinPath owner name

/-- A changefeed that the describe of its owner lists. -/
def FeedOf (owner : Str) (described : Json) (stream : Str) : Prop :=
  ∃ entries, streamEntries described = .ok entries ∧
    ∃ entry ∈ entries, EntryAt printer owner entry stream

/-- A topic that the describe of a changefeed lists; without any children it is the
one with the usual name. -/
def TopicOf (stream : Str) (described : Json) (topic : Str) : Prop :=
  ∃ children, streamChildren described = .ok children ∧
    ((children = [] ∧ topic = joinPath stream "streamImpl".toList) ∨
      ∃ child ∈ children, isStreamTopic py printer child = .ok true ∧
        EntryAt printer stream child topic)

/-- A topic of a changefeed of a described owner, within the prefix. -/
def FeedIn (owner : Str) (described : Json) (topic : Str) : Prop :=
  ∃ stream feed, FeedOf printer owner described stream ∧
    pathsIntersect stream search.pre = true ∧ Described printer viewer stream feed ∧
    TopicOf py printer stream feed topic ∧ pathMatchesPrefix topic search.pre = true

/-- A topic of a changefeed of the owner, within the prefix. -/
def FeedTopic (owner topic : Str) : Prop :=
  ∃ described, Described printer viewer owner described ∧
    FeedIn py printer viewer search owner described topic

/-- An index of the table that may have tables of its own. -/
def IndexAt (table : Str) (index : Json) (path : Str) : Prop :=
  index.isDict = true ∧ indexMayHaveImplTable py printer index = .ok true ∧
    EntryAt printer table index path

/-- A table of an index: a child that the describe of the index lists, or else one that
the describe of the table names, or else the one with the usual name. -/
def ImplOf (path : Str) (index described : Json) (impl : Str) : Prop :=
  ∃ description, pathDescription described = .ok description ∧
    ((listsChildren description = .ok true ∧ ∃ children, listedChildren description = .ok children ∧
        ∃ child ∈ children, isIndexImplChild py printer child = .ok true ∧
          EntryAt printer path child impl) ∨
      (listsChildren description = .ok false ∧ ∃ entries, implDescriptions index = .ok entries ∧
        ((∃ entry ∈ entries, EntryAt printer path entry impl) ∨
          (∀ entry ∈ entries, ∀ path', ¬ EntryAt printer path entry path') ∧
            impl = joinPath path "indexImplTable".toList)))

/-- A table of an index of the table, whether it is within the prefix or not. -/
def IndexTable (table impl : Str) : Prop :=
  ∃ described entries, Described printer viewer table described ∧
    indexEntries described = .ok entries ∧ ∃ index ∈ entries, ∃ path below,
      IndexAt py printer table index path ∧ pathsIntersect path search.pre = true ∧
      Described printer viewer path below ∧ ImplOf py printer path index below impl

/-- What is selected below a table. -/
inductive BelowTable (table : Str) : SchemeObject → Prop
  | feed {topic : Str} :
      search.wantCdc = true → FeedTopic py printer viewer search table topic →
        BelowTable table ⟨topic, "PERS_QUEUE_GROUP".toList⟩
  | index {impl : Str} :
      search.wantIndexTablets = true → IndexTable py printer viewer search table impl →
        pathMatchesPrefix impl search.pre = true → BelowTable table ⟨impl, tableType⟩
  | indexFeed {impl topic : Str} :
      search.wantCdc = true → IndexTable py printer viewer search table impl →
        pathsIntersect impl search.pre = true →
          FeedTopic py printer viewer search impl topic →
            BelowTable table ⟨topic, "PERS_QUEUE_GROUP".toList⟩

/-- An object of a wanted kind within the prefix, which the listing of a walked
directory shows: the directory itself or one of its children. -/
def ListedObject (start : Str) (object : SchemeObject) : Prop :=
  ∃ names listing, Walked py printer viewer search.walks start names ∧
    Lists py printer viewer (pathBelow start names) listing ∧
    (object = ⟨pathBelow start names, listing.selfType⟩ ∨
      ∃ child ∈ listing.children,
        object = ⟨pathBelow start (names ++ [child.name]), child.schemeType⟩) ∧
    object.schemeType ∈ search.schemeTypes ∧ pathMatchesPrefix object.path search.pre = true

/-- An object of a wanted kind within the prefix below a table of the walk. -/
def NestedObject (start : Str) (object : SchemeObject) : Prop :=
  ∃ names name table, TableAt py printer viewer search start names name table ∧
    BelowTable py printer viewer search table object

/-- The objects are the listed ones and the nested ones, one for each path and in the
order of the paths.  A listed one is preferred, and of these the smallest type. -/
structure Selects (start : Str) (objects : List SchemeObject) : Prop where
  sound : ∀ object ∈ objects, ListedObject py printer viewer search start object ∨
    NestedObject py printer viewer search start object
  complete : ∀ object, ListedObject py printer viewer search start object ∨
    NestedObject py printer viewer search start object →
      ∃ other ∈ objects, other.path = object.path
  preferred : ∀ object ∈ objects, ∀ other, ListedObject py printer viewer search start other →
    other.path = object.path →
      ListedObject py printer viewer search start object ∧ object.schemeType ≤ other.schemeType
  ordered : objects.Pairwise fun a b => a.path < b.path

/-- The path is listed as a directory. -/
def Walkable (path : Str) : Prop :=
  ∃ data selfType, viewer.listDirectory path = .ok data ∧
    directorySelfType py printer data = .ok selfType ∧ selfType ∈ directoryTypes

/-- The walk starts at the path if it is a directory, and otherwise at the next
directory above it that is not shorter than the database, or at the database. -/
inductive StartsFor (database : Str) : Str → Str → Prop
  | here {path : Str} :
      Walkable py printer viewer path → StartsFor database path path
  | above {path start : Str} :
      ¬ Walkable py printer viewer path → parentPath path ≠ [] → parentPath path ≠ path →
        database.length ≤ (parentPath path).length →
          StartsFor database (parentPath path) start → StartsFor database path start
  | database {path : Str} :
      ¬ Walkable py printer viewer path →
        parentPath path = [] ∨ parentPath path = path ∨
          (parentPath path).length < database.length →
          StartsFor database path database

/-- Where the walk starts: at the database without a prefix below it. -/
def StartsAt (database : Str) (pre : Option Str) (start : Str) : Prop :=
  (pre.getD database = database ∧ start = database) ∨
    ∃ path, pre = some path ∧ path ≠ database ∧
      StartsFor py printer viewer database path start

end Answers

section Nested

variable {py : Interpreter} {printer : Printer} {viewer : SchemeAnswers} {search : Search}
  {object : SchemeObject}

/-- The search of a list of items finds what the searches of the items find. -/
theorem mem_join_mapM_iff
    {α : Type} {f : α → Except BuiltinError Found} {items : List α} {results : List Found}
    {finds : α → Prop}
    (h : items.mapM f = .ok results)
    (hitems : ∀ item ∈ items, ∀ found, f item = .ok found →
      (object ∈ found.objects ↔ finds item)) :
    object ∈ (Found.join results).objects ↔ ∃ item ∈ items, finds item := by
  have hrel := mapM_ok_iff.mp h
  unfold Found.join
  rw [List.mem_flatMap]
  constructor
  · rintro ⟨found, hfound, hobject⟩
    obtain ⟨item, hitem, hok⟩ := exists_of_forall₂_right hrel hfound
    exact ⟨item, hitem, (hitems item hitem found hok).mp hobject⟩
  · rintro ⟨item, hitem, hfinds⟩
    obtain ⟨found, hfound, hok⟩ := exists_of_forall₂_left hrel hitem
    exact ⟨found, hfound, (hitems item hitem found hok).mpr hfinds⟩

theorem describeOutcome_ok_iff
    {path : Str} {described : Json} :
    describeOutcome printer viewer path cdcDescribeQuery = .ok described ↔
      Described printer viewer path described := by
  unfold describeOutcome Described
  cases viewer.describePath path cdcDescribeQuery with
  | error exc => simp
  | ok answer =>
      dsimp only
      rw [Except.ok.injEq]
      by_cases hsuccess : describeIsSuccess printer answer = true
      · rw [if_pos hsuccess, Except.ok.injEq]
        constructor
        · rintro rfl
          exact ⟨rfl, hsuccess⟩
        · exact And.left
      · rw [if_neg hsuccess]
        refine iff_of_false (fun h => ?_) ?_
        · split at h
          · cases h
          · cases h
        · rintro ⟨rfl, h⟩
          exact hsuccess h

/-- The search below a path finds what is found in its describe. -/
theorem mem_searchBelow_iff
    {path : Str} {next : Json → Except BuiltinError Found} {found : Found} {finds : Json → Prop}
    (h : searchBelow printer viewer path next = .ok found)
    (hnext : ∀ described, ∀ found, next described = .ok found →
      (object ∈ found.objects ↔ finds described)) :
    object ∈ found.objects ↔ ∃ described, Described printer viewer path described ∧
      finds described := by
  simp only [← describeOutcome_ok_iff]
  unfold searchBelow at h
  cases houtcome : describeOutcome printer viewer path cdcDescribeQuery with
  | error e =>
      rw [houtcome] at h
      cases h
      simp
  | ok described =>
      rw [houtcome] at h
      simp only [Except.ok.injEq, exists_eq_left']
      exact hnext described found h

theorem namedPath_iff
    {owner path : Str} {keep : Json → Except BuiltinError Bool} {entry : Json} :
    namedPath printer owner keep entry = .ok (some path) ↔
      keep entry = .ok true ∧ EntryAt printer owner entry path := by
  unfold namedPath EntryAt
  rw [bind_ok_iff]
  constructor
  · rintro ⟨name, hname, h⟩
    split at h
    · cases h
    · next hne =>
        obtain ⟨kept, hkept, h⟩ := bind_ok_iff.mp h
        cases kept with
        | false => cases h
        | true =>
            cases h
            exact ⟨hkept, name, hname, hne, rfl⟩
  · rintro ⟨hkept, name, hname, hne, rfl⟩
    refine ⟨name, hname, ?_⟩
    rw [if_neg hne, hkept]
    rfl

theorem mem_namedPaths_iff
    {owner path : Str} {keep : Json → Except BuiltinError Bool} {entries : List Json}
    {paths : List Str}
    (h : namedPaths printer owner keep entries = .ok paths) :
    path ∈ paths ↔ ∃ entry ∈ entries, keep entry = .ok true ∧ EntryAt printer owner entry path := by
  obtain ⟨found, hfound, h⟩ := bind_ok_iff.mp h
  cases h
  have hrel := mapM_ok_iff.mp hfound
  rw [List.reduceOption_mem_iff]
  constructor
  · intro hpath
    obtain ⟨entry, hentry, hok⟩ := exists_of_forall₂_right hrel hpath
    exact ⟨entry, hentry, namedPath_iff.mp hok⟩
  · rintro ⟨entry, hentry, hat⟩
    obtain ⟨path', hpath', hok⟩ := exists_of_forall₂_left hrel hentry
    obtain rfl := Except.ok.inj (hok.symm.trans (namedPath_iff.mpr hat))
    exact hpath'

theorem mem_pqChildrenOfStream_iff
    {stream topic : Str} {described : Json} {topics : List Str}
    (h : pqChildrenOfStream py printer search stream described = .ok topics) :
    topic ∈ topics ↔ TopicOf py printer stream described topic ∧
      pathMatchesPrefix topic search.pre = true := by
  obtain ⟨children, hchildren, h⟩ := bind_ok_iff.mp h
  obtain ⟨paths, hpaths, h⟩ := bind_ok_iff.mp h
  cases h
  rw [List.mem_filter]
  refine and_congr_left fun _ => ?_
  simp only [TopicOf, hchildren, Except.ok.injEq, exists_eq_left', ← mem_namedPaths_iff hpaths]
  by_cases hnone : children = []
  · have hempty : paths = [] := by
      rw [hnone] at hpaths
      cases hpaths
      rfl
    simp [hnone, hempty]
  · simp [hnone]

theorem mem_cdcStreamPaths_iff
    {owner stream : Str} {described : Json} {streams : List Str}
    (h : cdcStreamPathsFromTable printer search owner described = .ok streams) :
    stream ∈ streams ↔ FeedOf printer owner described stream ∧
      pathsIntersect stream search.pre = true := by
  obtain ⟨entries, hentries, h⟩ := bind_ok_iff.mp h
  obtain ⟨paths, hpaths, h⟩ := bind_ok_iff.mp h
  cases h
  rw [List.mem_filter, mem_namedPaths_iff hpaths]
  simp [FeedOf, hentries]

/-- The topics of the changefeeds of a described owner. -/
theorem mem_cdcTopicsUnder_iff
    {owner : Str} {described : Json} {found : Found}
    (h : cdcTopicsUnder py printer viewer search owner described = .ok found) :
    object ∈ found.objects ↔ ∃ topic, FeedIn py printer viewer search owner described topic ∧
      object = ⟨topic, "PERS_QUEUE_GROUP".toList⟩ := by
  obtain ⟨streams, hstreams, h⟩ := bind_ok_iff.mp h
  obtain ⟨results, hresults, h⟩ := bind_ok_iff.mp h
  cases h
  have htopics : ∀ stream found, topicsOfStream py printer viewer search stream = .ok found →
      (object ∈ found.objects ↔ ∃ feed, Described printer viewer stream feed ∧
        ∃ topic, (TopicOf py printer stream feed topic ∧
          pathMatchesPrefix topic search.pre = true) ∧
            object = ⟨topic, "PERS_QUEUE_GROUP".toList⟩) := by
    intro stream found h
    refine mem_searchBelow_iff h fun feed found h => ?_
    obtain ⟨topics, htopics, h⟩ := bind_ok_iff.mp h
    cases h
    simp only [List.mem_map, mem_pqChildrenOfStream_iff htopics, eq_comm]
  rw [mem_join_mapM_iff hresults fun stream _ found => htopics stream found]
  simp only [mem_cdcStreamPaths_iff hstreams]
  constructor
  · rintro ⟨stream, ⟨hfeed, hmeets⟩, feed, hdescribed, topic, ⟨htopic, hmatches⟩, hobject⟩
    exact ⟨topic, ⟨stream, feed, hfeed, hmeets, hdescribed, htopic, hmatches⟩, hobject⟩
  · rintro ⟨topic, ⟨stream, feed, hfeed, hmeets, hdescribed, htopic, hmatches⟩, hobject⟩
    exact ⟨stream, ⟨hfeed, hmeets⟩, feed, hdescribed, topic, ⟨htopic, hmatches⟩, hobject⟩

/-- A table of an index, and the topics below it. -/
def OfImpl
    (py : Interpreter) (printer : Printer) (viewer : SchemeAnswers) (search : Search)
    (impl : Str) (object : SchemeObject) : Prop :=
  (search.wantIndexTablets = true ∧ pathMatchesPrefix impl search.pre = true ∧
    object = ⟨impl, tableType⟩) ∨
  (search.wantCdc = true ∧ pathsIntersect impl search.pre = true ∧
    ∃ topic, FeedTopic py printer viewer search impl topic ∧
      object = ⟨topic, "PERS_QUEUE_GROUP".toList⟩)

theorem mem_searchImpl_iff
    {impl : Str} {found : Found}
    (h : searchImpl py printer viewer search impl = .ok found) :
    object ∈ found.objects ↔ OfImpl py printer viewer search impl object := by
  obtain ⟨topics, htopics, h⟩ := bind_ok_iff.mp h
  cases h
  have hbelow : object ∈ topics.objects ↔ search.wantCdc = true ∧
      pathsIntersect impl search.pre = true ∧
        ∃ topic, FeedTopic py printer viewer search impl topic ∧
          object = ⟨topic, "PERS_QUEUE_GROUP".toList⟩ := by
    unfold topicsOfImpl at htopics
    by_cases hwanted : (search.wantCdc && pathsIntersect impl search.pre) = true
    · rw [if_pos hwanted] at htopics
      rw [Bool.and_eq_true] at hwanted
      rw [mem_searchBelow_iff htopics fun _ _ => mem_cdcTopicsUnder_iff]
      simp only [hwanted, true_and, FeedTopic]
      constructor
      · rintro ⟨described, hdescribed, topic, hfeed, hobject⟩
        exact ⟨topic, ⟨described, hdescribed, hfeed⟩, hobject⟩
      · rintro ⟨topic, ⟨described, hdescribed, hfeed⟩, hobject⟩
        exact ⟨described, hdescribed, topic, hfeed, hobject⟩
    · rw [if_neg hwanted] at htopics
      cases htopics
      rw [Bool.and_eq_true] at hwanted
      refine iff_of_false List.not_mem_nil ?_
      rintro ⟨hcdc, hmeets, -⟩
      exact hwanted ⟨hcdc, hmeets⟩
  rw [OfImpl, ← hbelow]
  simp only [Found.join, List.flatMap_cons, List.flatMap_nil, List.append_nil, List.mem_append]
  refine or_congr_left ?_
  split
  · next hwanted =>
      rw [Bool.and_eq_true] at hwanted
      simp [hwanted]
  · next hwanted =>
      rw [Bool.and_eq_true] at hwanted
      refine iff_of_false List.not_mem_nil ?_
      rintro ⟨htablets, hmatches, -⟩
      exact hwanted ⟨htablets, hmatches⟩

theorem mem_indexImplPaths_iff
    {path impl : Str} {index described : Json} {impls : List Str}
    (h : indexImplPaths py printer path index described = .ok impls) :
    impl ∈ impls ↔ ImplOf py printer path index described impl := by
  obtain ⟨description, hdescription, h⟩ := bind_ok_iff.mp h
  obtain ⟨listed, hlisted, h⟩ := bind_ok_iff.mp h
  simp only [ImplOf, hdescription, Except.ok.injEq, exists_eq_left', hlisted]
  cases listed with
  | true =>
      obtain ⟨children, hchildren, h⟩ := bind_ok_iff.mp h
      rw [mem_namedPaths_iff h]
      simp [hchildren]
  | false =>
      obtain ⟨entries, hentries, h⟩ := bind_ok_iff.mp h
      obtain ⟨named, hnamed, h⟩ := bind_ok_iff.mp h
      cases h
      have hmem : ∀ path', path' ∈ named ↔ ∃ entry ∈ entries, EntryAt printer path entry path' := by
        intro path'
        rw [mem_namedPaths_iff hnamed]
        simp
      simp only [Bool.false_eq_true, false_and, false_or, true_and, hentries, Except.ok.injEq,
        exists_eq_left', ← hmem]
      by_cases hnone : named = []
      · have hall : ∀ entry ∈ entries, ∀ path', ¬ EntryAt printer path entry path' := by
          intro entry hentry path' hat
          have hpath := (hmem path').mpr ⟨entry, hentry, hat⟩
          rw [hnone] at hpath
          cases hpath
        simpa [hnone] using fun _ => hall
      · obtain ⟨path', hpath'⟩ := List.exists_mem_of_ne_nil named hnone
        obtain ⟨entry, hentry, hat⟩ := (hmem path').mp hpath'
        rw [if_pos hnone]
        constructor
        · exact Or.inl
        · rintro (himpl | ⟨hnot, -⟩)
          · exact himpl
          · exact absurd hat (hnot entry hentry path')

theorem indexPathOf_iff
    {table path : Str} {index : Json} {result : Option Str}
    (h : indexPathOf py printer search table index = .ok result) :
    result = some path ↔ IndexAt py printer table index path ∧
      pathsIntersect path search.pre = true := by
  unfold indexPathOf at h
  unfold IndexAt
  by_cases hdict : index.isDict = true
  · rw [if_pos hdict] at h
    obtain ⟨mayHave, hmayHave, h⟩ := bind_ok_iff.mp h
    cases mayHave with
    | false =>
        cases h
        simp [hmayHave]
    | true =>
        obtain ⟨named, hnamed, h⟩ := bind_ok_iff.mp h
        cases h
        have hat : named = some path ↔ EntryAt printer table index path := by
          constructor
          · rintro rfl
            exact (namedPath_iff.mp hnamed).2
          · intro hat
            exact Except.ok.inj (hnamed.symm.trans (namedPath_iff.mpr ⟨rfl, hat⟩))
        simp [hdict, hmayHave, Option.filter_eq_some_iff, hat]
  · rw [if_neg hdict] at h
    cases h
    simp [hdict]

/-- What is found for one index of a table. -/
theorem mem_searchIndex_iff
    {table : Str} {index : Json} {found : Found}
    (h : searchIndex py printer viewer search table index = .ok found) :
    object ∈ found.objects ↔ ∃ path, (IndexAt py printer table index path ∧
      pathsIntersect path search.pre = true) ∧
        ∃ below, Described printer viewer path below ∧
          ∃ impl, ImplOf py printer path index below impl ∧
            OfImpl py printer viewer search impl object := by
  obtain ⟨result, hresult, h⟩ := bind_ok_iff.mp h
  simp only [← indexPathOf_iff hresult]
  cases result with
  | none =>
      cases h
      simp [Found.empty]
  | some path =>
      simp only [Option.some.injEq, exists_eq_left']
      refine mem_searchBelow_iff h fun below found h => ?_
      obtain ⟨impls, himpls, h⟩ := bind_ok_iff.mp h
      obtain ⟨results, hresults, h⟩ := bind_ok_iff.mp h
      cases h
      rw [mem_join_mapM_iff hresults fun impl _ found => mem_searchImpl_iff]
      simp only [mem_indexImplPaths_iff himpls]

/-- What is found in the describe of a table. -/
theorem mem_searchDescribedTable_iff
    {table : Str} {described : Json} {found : Found}
    (h : searchDescribedTable py printer viewer search table described = .ok found) :
    object ∈ found.objects ↔
      (search.wantCdc = true ∧ ∃ topic, FeedIn py printer viewer search table described topic ∧
        object = ⟨topic, "PERS_QUEUE_GROUP".toList⟩) ∨
      ∃ entries, indexEntries described = .ok entries ∧ ∃ index ∈ entries,
        ∃ path, (IndexAt py printer table index path ∧
          pathsIntersect path search.pre = true) ∧
            ∃ below, Described printer viewer path below ∧
              ∃ impl, ImplOf py printer path index below impl ∧
                OfImpl py printer viewer search impl object := by
  obtain ⟨topics, htopics, h⟩ := bind_ok_iff.mp h
  obtain ⟨indexes, hindexes, h⟩ := bind_ok_iff.mp h
  obtain ⟨results, hresults, h⟩ := bind_ok_iff.mp h
  cases h
  have hjoin : object ∈ (Found.join (topics :: results)).objects ↔
      object ∈ topics.objects ∨ object ∈ (Found.join results).objects := by
    simp [Found.join]
  rw [hjoin, mem_join_mapM_iff hresults fun index _ found => mem_searchIndex_iff]
  simp only [hindexes, Except.ok.injEq, exists_eq_left']
  refine or_congr_left ?_
  unfold topicsOfTable at htopics
  by_cases hwanted : search.wantCdc = true
  · rw [if_pos hwanted] at htopics
    rw [mem_cdcTopicsUnder_iff htopics]
    simp [hwanted]
  · rw [if_neg hwanted] at htopics
    cases htopics
    simp [hwanted, Found.empty]

/-- What the nested discovery finds for a table. -/
theorem mem_discoverNestedForTable_iff
    {table : Str} {found : Found}
    (h : discoverNestedForTable py printer viewer search table = .ok found) :
    object ∈ found.objects ↔ BelowTable py printer viewer search table object := by
  rw [mem_searchBelow_iff h fun described found => mem_searchDescribedTable_iff]
  constructor
  · rintro ⟨described, hdescribed, ⟨hcdc, topic, hfeed, rfl⟩ |
      ⟨entries, hentries, index, hindex, path, ⟨hat, hmeets⟩, below, hbelow, impl, himpl,
        hobject⟩⟩
    · exact .feed hcdc ⟨described, hdescribed, hfeed⟩
    · have htable : IndexTable py printer viewer search table impl :=
        ⟨described, entries, hdescribed, hentries, index, hindex, path, below, hat, hmeets, hbelow,
          himpl⟩
      rcases hobject with ⟨htablets, hmatches, rfl⟩ | ⟨hcdc, hreached, topic, hfeed, rfl⟩
      · exact .index htablets htable hmatches
      · exact .indexFeed hcdc htable hreached hfeed
  · intro hbelow
    cases hbelow with
    | feed hcdc hfeed =>
        obtain ⟨described, hdescribed, hfeed⟩ := hfeed
        exact ⟨described, hdescribed, Or.inl ⟨hcdc, _, hfeed, rfl⟩⟩
    | index htablets htable hmatches =>
        obtain ⟨described, entries, hdescribed, hentries, index, hindex, path, below, hat, hmeets,
          hbelow, himpl⟩ := htable
        exact ⟨described, hdescribed, Or.inr ⟨entries, hentries, index, hindex, path,
          ⟨hat, hmeets⟩, below, hbelow, _, himpl, Or.inl ⟨htablets, hmatches, rfl⟩⟩⟩
    | indexFeed hcdc htable hreached hfeed =>
        obtain ⟨described, entries, hdescribed, hentries, index, hindex, path, below, hat, hmeets,
          hbelow, himpl⟩ := htable
        exact ⟨described, hdescribed, Or.inr ⟨entries, hentries, index, hindex, path,
          ⟨hat, hmeets⟩, below, hbelow, _, himpl, Or.inr ⟨hcdc, hreached, _, hfeed, rfl⟩⟩⟩

end Nested

section Start

variable {py : Interpreter} {printer : Printer} {viewer : SchemeAnswers} {database : Str}

theorem isWalkable_ok_iff
    {path : Str} {walkable : Bool}
    (h : isWalkable py printer viewer path = .ok walkable) :
    walkable = true ↔ Walkable py printer viewer path := by
  unfold isWalkable at h
  unfold Walkable
  cases hlist : viewer.listDirectory path with
  | error exc =>
      rw [hlist] at h
      cases h
      simp
  | ok data =>
      rw [hlist] at h
      obtain ⟨selfType, hself, h⟩ := bind_ok_iff.mp h
      cases h
      simp [hself]

theorem startsFor_of_resolveFrom
    {path start : Str}
    (h : resolveFrom py printer viewer database path = .ok start) :
    StartsFor py printer viewer database path start := by
  induction path using resolveFrom.induct database with
  | case1 path ih =>
      rw [resolveFrom] at h
      obtain ⟨walkable, hwalkable, h⟩ := bind_ok_iff.mp h
      have hiff := isWalkable_ok_iff hwalkable
      cases walkable with
      | true =>
          cases h
          exact .here (hiff.mp rfl)
      | false =>
          have hnot : ¬ Walkable py printer viewer path := fun hwalk => nomatch hiff.mpr hwalk
          rw [if_neg Bool.false_ne_true] at h
          split at h
          · next hend =>
              cases h
              exact .database hnot hend
          · next hgo =>
              have hparts := hgo
              push Not at hparts
              exact .above hnot hparts.1 hparts.2.1 hparts.2.2 (ih hgo h)

theorem startsAt_of_resolveStartPath
    {pre : Option Str} {start : Str}
    (h : resolveStartPath py printer viewer database pre = .ok start) :
    StartsAt py printer viewer database pre start := by
  cases pre with
  | none =>
      cases h
      exact Or.inl ⟨rfl, rfl⟩
  | some path =>
      rw [resolveStartPath] at h
      split at h
      · next heq =>
          cases h
          exact Or.inl ⟨heq, rfl⟩
      · next hne => exact Or.inr ⟨path, rfl, hne, startsFor_of_resolveFrom h⟩

end Start

end Tablets
end YdbSnippets
