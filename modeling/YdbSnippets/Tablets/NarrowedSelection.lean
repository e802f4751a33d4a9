import YdbSnippets.Tablets.NarrowedTables

/-!
# What a prefix leaves of the selection

The run with a prefix selects, of the objects of the run without one, those at the prefix
or under it.
-/

namespace YdbSnippets
namespace Tablets

open Python Text Sorting Firsts Matching Viewer

section Merging

/-- A selection by the path commutes with the merge. -/
theorem filter_mergeObjects
    (keep : Str → Bool) (objects extra : List SchemeObject) :
    (mergeObjects objects extra).filter (fun object => keep object.path) =
      mergeObjects (objects.filter fun object => keep object.path)
        (extra.filter fun object => keep object.path) := by
  unfold mergeObjects
  rw [filter_sortedBy, List.filter_append, filter_firstsFrom]
  intro path hkeep
  rw [List.mem_map, List.mem_map]
  refine exists_congr fun object => and_congr_left fun hpath => ?_
  rw [List.mem_filter, hpath]
  exact (and_iff_left hkeep).symm

/-- A selection by the path commutes with the order and the dropped repetitions. -/
theorem filter_objects
    (keep : Str → Bool) {queue seen queue' seen' : List Str} {visits visits' : List Visit}
    (h : ∀ object, object ∈ visits'.flatMap Visit.objects ↔
      object ∈ visits.flatMap Visit.objects ∧ keep object.path = true) :
    (gathered queue' seen' visits').result.objects =
      (gathered queue seen visits).result.objects.filter fun object => keep object.path := by
  unfold CollectState.result gathered
  dsimp only
  rw [filter_firstsFrom fun _ _ => Iff.rfl, filter_sortedBy]
  refine firstsFrom_sortedBy_congr SchemeObject.key_injective fun object => ?_
  rw [h, List.mem_filter]

/-- A selection of the tables commutes with the order and the dropped repetitions. -/
theorem filter_nestedTables
    {keep : Str → Bool} {queue seen queue' seen' : List Str} {visits visits' : List Visit}
    (h : ∀ table, table ∈ (gathered queue' seen' visits').result.nestedTables ↔
      table ∈ (gathered queue seen visits).result.nestedTables ∧ keep table = true) :
    (gathered queue' seen' visits').result.nestedTables =
      (gathered queue seen visits).result.nestedTables.filter keep := by
  have hnodup : ∀ s : CollectState, s.result.nestedTables.Nodup := fun s =>
    (sortedBy_perm id _).nodup_iff.mpr (nodup_eraseDups s.nestedTables)
  have hperm : (gathered queue' seen' visits').result.nestedTables.Perm
      ((gathered queue seen visits).result.nestedTables.filter keep) := by
    refine (List.perm_ext_iff_of_nodup (hnodup _) ((hnodup _).filter keep)).mpr fun table => ?_
    rw [h, List.mem_filter]
  refine hperm.eq_of_pairwise (fun a b _ _ => le_antisymm) (ascending_sortedBy id _) ?_
  exact (ascending_sortedBy id _).filter keep

end Merging

section Runs

variable {py : Interpreter} {printer : Printer} {html : HtmlLibrary} {pages : SchemeShardPages}
  {viewer : SchemeAnswers} {search : Search} {database start : Str}

/-- A walk that ends, and its nested discovery: what it hands over to the merge. -/
structure Collects
    (py : Interpreter) (printer : Printer) (viewer : SchemeAnswers) (search : Search)
    (start : Str) (paths : List Str) (visits : List Visit) (nested : List Found) : Prop where
  reaches : ∀ path, path ∈ paths ↔ Worklist.Reaches (nextOf py printer viewer search) start path
  visited : Visited py printer viewer search paths visits
  nested : (gathered [] paths visits).result.nestedTables.mapM
    (discoverNestedForTable py printer viewer search) = .ok nested

/-- The names of a table of the walk. -/
theorem TableAt.isPlainName
    {names : List Str} {name table : Str}
    (hat : TableAt py printer viewer search database names name table)
    (htree : IsSchemeTree py printer viewer database) :
    ∀ n ∈ names ++ [name], IsPlainName n := by
  obtain ⟨listing, hlists, child, hchild, rfl, -⟩ := hat.listed
  exact htree.plain_concat hat.walked hlists hchild

/-- Where every listing is read, the walk ends without an error. -/
theorem exists_collected
    (hfinite : FinitelyListed viewer) (hread : ListingsRead py printer viewer)
    (search : Search) (start : Str) :
    ∃ enough paths visits,
      (∀ path, path ∈ paths ↔
        Worklist.Reaches (nextOf py printer viewer search) start path) ∧
      Visited py printer viewer search paths visits ∧
      ∀ fuel, enough ≤ fuel → collectObjects py printer viewer search start fuel =
        some (.ok (gathered [] paths visits).result) := by
  obtain ⟨enough, result, hcollect, hresult⟩ := collectObjects_spec hfinite py printer search start
  rcases hresult with ⟨path, e, hvisit, -⟩ | ⟨paths, visits, hreach, hvisited, rfl⟩
  · exact absurd hvisit (visit_ne_error hread)
  · exact ⟨enough, paths, visits, hreach, hvisited, hcollect⟩

/-- The objects of a run. -/
theorem Collects.selectTablets
    (html : HtmlLibrary) (pages : SchemeShardPages)
    {paths : List Str} {visits : List Visit} {nested : List Found} {fuel : Nat}
    (h : Collects py printer viewer search start paths visits nested)
    (hnames : NamesListed py printer viewer) (hleaves : TablesAreLeaves py printer viewer)
    (hstart : resolveStartPath py printer viewer database search.pre = .ok start)
    (hcollect : collectObjects py printer viewer search start fuel =
      some (.ok (gathered [] paths visits).result))
    (tablesDone : CompletionOrder Str) (objectsDone : CompletionOrder SchemeObject) :
    ∃ selection,
      selectTablets py printer html pages viewer search tablesDone objectsDone database fuel =
        some (.ok selection) ∧
      selection.objects = withNested (gathered [] paths visits).result nested := by
  obtain ⟨selection, hok, hobjects, -⟩ :=
    selectFrom_of_nested py printer html pages viewer search (fun _ => nodup_withNested)
      (tablesApart_gathered hnames hleaves h.reaches h.visited) h.nested tablesDone objectsDone
  refine ⟨selection, ?_, hobjects⟩
  rw [selectTablets_of_collected hstart hcollect]
  exact congrArg some hok

theorem Collects.withNested_eq
    {paths : List Str} {visits : List Visit} {nested : List Found}
    (h : Collects py printer viewer search start paths visits nested) :
    withNested (gathered [] paths visits).result nested =
      mergeObjects (gathered [] paths visits).result.objects (Found.join nested).objects := by
  refine withNested_eq_mergeObjects fun hnone => ?_
  have hnested := h.nested
  rw [hnone, List.mapM_nil] at hnested
  exact (Except.ok.inj hnested).symm

/-- Every object of the full run has a path of names below the database. -/
theorem Collects.path_of_mem
    {paths : List Str} {visits : List Visit} {nested : List Found}
    (h : Collects py printer viewer search database paths visits nested)
    (htree : IsSchemeTree py printer viewer database)
    (hdescribed : NamesDescribed printer viewer IsPlainName) {object : SchemeObject}
    (hobject : object ∈ withNested (gathered [] paths visits).result nested) :
    At database [] object.path := by
  rw [h.withNested_eq, mergeObjects, mem_sortedBy, List.mem_append] at hobject
  rcases hobject with hobject | hobject
  · have hfound : object ∈ visits.flatMap Visit.objects :=
      mem_sortedBy.mp ((firstsFrom_sublist _ _ _).subset hobject)
    obtain ⟨names, listing, hwalked, hlists, hmem⟩ :=
      (mem_visits_iff (fun _ hobjects _ => hobjects) htree.namesListed h.reaches
        h.visited).mp hfound
    have hplain := hwalked.forall_names htree.plain
    rcases mem_visitListing_iff.mp hmem with ⟨-, rfl⟩ | ⟨child, hchild, -, rfl⟩
    · exact ⟨names, hplain, rfl⟩
    · have hplace : At database names (pathBelow database names) := at_self hplain
      obtain ⟨more, hall, heq⟩ := (namesPlace hdescribed database names).join _ child.name hplace
        (htree.plain _ _ hlists child hchild)
      exact ⟨names ++ more, hall, heq⟩
  · have hmem : object ∈ (Found.join nested).objects :=
      (firstsFrom_sublist _ _ _).subset hobject
    obtain ⟨found, hfound, hmem⟩ := List.mem_flatMap.mp hmem
    obtain ⟨table, htable, hok⟩ := exists_of_forall₂_right (mapM_ok_iff.mp h.nested) hfound
    obtain ⟨names, name, hat⟩ :=
      (mem_nestedTables_iff htree.namesListed h.reaches h.visited).mp htable
    have hplace := (namesPlace hdescribed database []).holds_discoverNestedForTable
      ⟨names ++ [name], hat.isPlainName htree, hat.path_eq⟩ hok
    exact hplace object hmem

end Runs

section Narrowed

variable {py : Interpreter} {printer : Printer} {html : HtmlLibrary} {pages : SchemeShardPages}
  {viewer : SchemeAnswers} {search : Search} {database pre : Str} {parts above : List Str}

/-- The walk with a prefix starts on the way to it. -/
theorem exists_narrowedWalk
    (hdatabase : IsDatabasePath database) (htree : IsSchemeTree py printer viewer database)
    (hread : ListingsRead py printer viewer) (hpre : IsPrefixBelow database pre parts)
    (hsearch : search.pre = some pre) (hshows : search.Shows parts) :
    ∃ above,
      resolveStartPath py printer viewer database search.pre = .ok (pathBelow database above) ∧
      NarrowedWalk py printer viewer search database pre parts above := by
  obtain ⟨start, hstart⟩ := exists_resolveStartPath hread database search.pre
  rw [hsearch] at hstart
  obtain ⟨above, honWay, rfl, hdirectory⟩ :=
    start_of_resolveStartPath hdatabase hread hpre hstart
  refine ⟨above, hsearch ▸ hstart, hdatabase, htree, hpre, hsearch, honWay, hdirectory, ?_⟩
  rcases hdirectory with rfl | ⟨listing, hlists, htype⟩
  · exact .start
  · exact htree.walked (fun name hname => hpre.isName name (honWay.subset hname))
      (hshows.imp id fun h name hname => h name (honWay.subset hname)) hlists htype

/-- The objects with a prefix are those of the full run that match it. -/
theorem NarrowedWalk.withNested_eq
    (h : NarrowedWalk py printer viewer search database pre parts above)
    (hdescribed : NamesDescribed printer viewer IsPlainName)
    {paths paths' : List Str} {visits visits' : List Visit} {nested : List Found}
    (hfull : Collects py printer viewer search.full database paths visits nested)
    (hreach : ∀ path, path ∈ paths' ↔
      Worklist.Reaches (nextOf py printer viewer search) (pathBelow database above) path)
    (hvisited : Visited py printer viewer search paths' visits') :
    ∃ nested',
      Collects py printer viewer search (pathBelow database above) paths' visits' nested' ∧
      withNested (gathered [] paths' visits').result nested' =
        (withNested (gathered [] paths visits).result nested).filter fun object =>
          pathMatchesPrefix object.path (some pre) := by
  have hnames := h.tree.namesListed
  have hobjects : (gathered [] paths' visits').result.objects =
      (gathered [] paths visits).result.objects.filter fun object =>
        pathMatchesPrefix object.path (some pre) := by
    refine filter_objects (fun path => pathMatchesPrefix path (some pre)) fun object => ?_
    rw [mem_visits_iff (fun _ hobjects _ => hobjects) hnames hreach hvisited,
      mem_visits_iff (fun _ hobjects _ => hobjects) hnames hfull.reaches hfull.visited]
    exact h.objectAt_iff
  have htables : (gathered [] paths' visits').result.nestedTables =
      (gathered [] paths visits).result.nestedTables.filter fun table =>
        pathsIntersect table (some pre) := by
    refine filter_nestedTables fun table => ?_
    rw [mem_nestedTables_iff hnames hreach hvisited,
      mem_nestedTables_iff hnames hfull.reaches hfull.visited]
    exact h.tableAt_iff
  have hplain : ∀ table ∈ (gathered [] paths visits).result.nestedTables,
      ∃ names, (∀ name ∈ names, IsPlainName name) ∧ table = pathBelow database names := by
    intro table htable
    obtain ⟨names, name, hat⟩ :=
      (mem_nestedTables_iff hnames hfull.reaches hfull.visited).mp htable
    exact ⟨names ++ [name], hat.isPlainName h.tree, hat.path_eq⟩
  obtain ⟨nested', hnested, hnarrows⟩ :
      ∃ nested', ((gathered [] paths visits).result.nestedTables.filter fun table =>
          pathsIntersect table (some pre)).mapM
            (discoverNestedForTable py printer viewer search) = .ok nested' ∧
        Narrows pre (Found.join nested) (Found.join nested') := by
    refine narrows_mapM hfull.nested ?_ ?_
    · intro table htable _
      obtain ⟨names, hnames, rfl⟩ := hplain table htable
      exact narrowsTo_discoverNestedForTable hdescribed h.isDatabase h.isPrefix h.searched
        (at_self hnames)
    · intro table htable hapart found hfound
      obtain ⟨names, hnames, rfl⟩ := hplain table htable
      refine h.isPrefix.narrows_empty h.isDatabase hnames hapart ?_
      exact (namesPlace hdescribed database names).holds_discoverNestedForTable (at_self hnames)
        hfound
  rw [← htables] at hnested
  have hcollects : Collects py printer viewer search (pathBelow database above) paths' visits'
      nested' := ⟨hreach, hvisited, hnested⟩
  refine ⟨nested', hcollects, ?_⟩
  rw [hcollects.withNested_eq, hfull.withNested_eq, hobjects, hnarrows]
  exact (filter_mergeObjects (fun path => pathMatchesPrefix path (some pre)) _ _).symm

/-- A prefix only narrows the selection: whatever the kinds of objects, and in whatever
order the workers complete, the run with the prefix selects those objects of the run
without it that are at the prefix or under it. -/
theorem prefix_narrows_selection
    (py : Interpreter)
    (printer : Printer)
    (html : HtmlLibrary)
    (pages : SchemeShardPages)
    (viewer : SchemeAnswers)
    (search : Search)
    (database : Str)
    (value : Option Str)
    (hdatabase : IsDatabasePath database)
    (htree : IsSchemeTree py printer viewer database)
    (hdescribed : NamesDescribed printer viewer IsPlainName)
    (hread : AnswersRead py printer viewer search.full)
    (hresolved : resolvePrefix database value = .ok search.pre)
    (hnormal : ∀ pre ∈ search.pre, normalizePath pre = pre)
    (hshows : ∀ pre ∈ search.pre, ∀ parts,
      pathComponents pre = pathComponents database ++ parts → search.Shows parts) :
    ∃ enough objects,
      (∀ fuel, enough ≤ fuel → ∀ tablesDone objectsDone, ∃ selection,
        selectTablets py printer html pages viewer search.full tablesDone objectsDone database
          fuel = some (.ok selection) ∧
        selection.objects = objects) ∧
      ∀ fuel, enough ≤ fuel → ∀ tablesDone objectsDone, ∃ selection,
        selectTablets py printer html pages viewer search tablesDone objectsDone database
          fuel = some (.ok selection) ∧
        selection.objects = objects.filter fun object =>
          search.pre.all fun pre => atOrUnder pre object.path := by
  have hnames := htree.namesListed
  have hleaves := htree.tablesAreLeaves
  obtain ⟨enough, paths, visits, hreach, hvisited, hcollect⟩ :=
    exists_collected htree.finite hread.listings search.full database
  obtain ⟨nested, hnested⟩ : ∃ nested, (gathered [] paths visits).result.nestedTables.mapM
      (discoverNestedForTable py printer viewer search.full) = .ok nested := by
    cases hmap : (gathered [] paths visits).result.nestedTables.mapM
        (discoverNestedForTable py printer viewer search.full) with
    | ok nested => exact ⟨nested, rfl⟩
    | error e =>
        obtain ⟨table, -, e', herror⟩ := mapM_error_iff.mp ⟨e, hmap⟩
        obtain ⟨found, hfound⟩ := hread.nested table
        rw [hfound] at herror
        cases herror
  have hfull : Collects py printer viewer search.full database paths visits nested :=
    ⟨hreach, hvisited, hnested⟩
  cases hsearch : search.pre with
  | none =>
      have hsame : search.full = search := by
        rw [Search.full, ← hsearch]
      rw [hsame] at hfull hcollect ⊢
      have hrun := fun fuel hle => hfull.selectTablets html pages hnames hleaves
        (by rw [hsearch]; rfl) (hcollect fuel hle)
      refine ⟨enough, _, hrun, fun fuel hle tablesDone objectsDone => ?_⟩
      obtain ⟨selection, hok, hobjects⟩ := hrun fuel hle tablesDone objectsDone
      refine ⟨selection, hok, hobjects.trans (List.filter_eq_self.mpr ?_).symm⟩
      exact fun _ _ => rfl
  | some pre =>
      rw [hsearch] at hresolved
      have hresolved' : ∃ text, value = some text := by
        cases value with
        | none => cases hresolved
        | some text => exact ⟨text, rfl⟩
      obtain ⟨text, rfl⟩ := hresolved'
      obtain ⟨parts, hpre⟩ :=
        exists_parts_of_resolvePrefix hdatabase hresolved (hnormal pre hsearch)
      obtain ⟨above, hstart, hwalk⟩ := exists_narrowedWalk hdatabase htree hread.listings hpre
        hsearch (hshows pre hsearch parts (hpre.components hdatabase))
      obtain ⟨enough', paths', visits', hreach', hvisited', hcollect'⟩ :=
        exists_collected htree.finite hread.listings search (pathBelow database above)
      obtain ⟨nested', hnarrowed, hobjects⟩ :=
        hwalk.withNested_eq hdescribed hfull hreach' hvisited'
      refine ⟨max enough enough', withNested (gathered [] paths visits).result nested,
        fun fuel hle => ?_, fun fuel hle tablesDone objectsDone => ?_⟩
      · exact hfull.selectTablets html pages hnames hleaves rfl
          (hcollect fuel (le_trans (le_max_left _ _) hle))
      · obtain ⟨selection, hok, hselected⟩ := hnarrowed.selectTablets html pages hnames hleaves
          hstart (hcollect' fuel (le_trans (le_max_right _ _) hle)) tablesDone objectsDone
        refine ⟨selection, hok, hselected.trans (hobjects.trans (List.filter_congr ?_))⟩
        intro object hobject
        obtain ⟨names, hplain, hpath⟩ := hfull.path_of_mem htree hdescribed hobject
        rw [hpath]
        exact (hpre.atOrUnder_eq hdatabase hplain).symm

variable {names : List Str} {describe : Str → Except PyException Json}

theorem isSchemeTree_topicsAnswers
    (hplain : ∀ name ∈ names, IsPlainName name) :
    IsSchemeTree asciiInterpreter plainPrinter (topicsAnswers database names describe)
      database where
  finite := finitelyListed_topicsAnswers
  plain path listing h child hchild := by
    rw [(lists_topicsAnswers (fun name hname => (hplain name hname).ne_nil) h).2] at hchild
    obtain ⟨name, hname, rfl⟩ := List.mem_map.mp hchild
    exact hplain name hname
  unique path listing h child hchild other hother _ := by
    rw [(lists_topicsAnswers (fun name hname => (hplain name hname).ne_nil) h).2] at hchild hother
    obtain ⟨name, -, rfl⟩ := List.mem_map.mp hchild
    obtain ⟨name', -, rfl⟩ := List.mem_map.mp hother
    rfl
  parent path last listing hnames h _ := by
    have hpath : pathBelow database (path ++ [last]) = pathBelow database [] :=
      (lists_topicsAnswers (fun name hname => (hplain name hname).ne_nil) h).1
    have hnil := pathBelow_inj hnames (fun _ h => absurd h List.not_mem_nil) hpath
    exact absurd hnil (by simp)

theorem listingsRead_topicsAnswers
    (hnames : ∀ name ∈ names, name ≠ []) :
    ListingsRead asciiInterpreter plainPrinter (topicsAnswers database names describe) := by
  intro path data hdata
  unfold topicsAnswers at hdata
  dsimp only at hdata
  split at hdata
  · cases hdata
    exact ⟨_, readListing_topics hnames⟩
  · cases hdata

/-- No topic of the database is described. -/
def notDescribed (_ : Str) : Except PyException Json :=
  .error ⟨.httpError, []⟩

theorem prefix_narrows_selection_two_topics :
    ∃ enough, ∀ fuel, enough ≤ fuel → ∀ tablesDone objectsDone, ∃ selection,
      selectTablets asciiInterpreter plainPrinter plainHtml dropPages
        (topicsAnswers "/db".toList [['a'], ['t']] notDescribed)
        ⟨topicSchemeTypes, some "/db/t".toList, false⟩ tablesDone objectsDone "/db".toList fuel =
          some (.ok selection) ∧
      selection.objects = [⟨"/db/t".toList, "TOPIC".toList⟩] := by
  have hplain : ∀ name ∈ [['a'], ['t']], IsPlainName name := by
    intro name hname
    rcases List.mem_pair.mp hname with rfl | rfl
    · exact isPlainName_of_getLast (by decide) (by decide) rfl rfl
    · exact isPlainName_of_getLast (by decide) (by decide) rfl rfl
  obtain ⟨enough, objects, hfull, hnarrowed⟩ :=
    prefix_narrows_selection asciiInterpreter plainPrinter plainHtml dropPages
      (topicsAnswers "/db".toList [['a'], ['t']] notDescribed)
      ⟨topicSchemeTypes, some "/db/t".toList, false⟩ "/db".toList
      (some "/db/t".toList) ⟨by decide +kernel, by decide⟩ (isSchemeTree_topicsAnswers hplain)
      (by
        intro path described h
        cases h)
      ⟨listingsRead_topicsAnswers fun name hname => (hplain name hname).ne_nil, fun _ => ⟨_, rfl⟩⟩
      (by decide +kernel) (by decide +kernel)
      (by
        intro pre hpre parts hparts
        refine Or.inr fun name hname => ?_
        have hmem : name ∈ pathComponents pre := by
          rw [hparts]
          exact List.mem_append_right _ hname
        obtain rfl := Option.mem_some_iff.mp hpre
        have hvisible : ∀ n ∈ pathComponents "/db/t".toList, n.head? ≠ some '.' := by
          decide +kernel
        exact hvisible name hmem)
  obtain ⟨selection, hone, hobjects, -⟩ :=
    selectTablets_of_no_tables plainHtml dropPages (by rfl)
      (collectObjects_twoTopics (le_max_right enough 1))
      CompletionOrder.asStarted CompletionOrder.asStarted
  obtain ⟨selection', hone', rfl⟩ := hfull (max enough 1) (le_max_left enough 1)
    CompletionOrder.asStarted CompletionOrder.asStarted
  obtain rfl := Except.ok.inj (Option.some.inj (hone.symm.trans hone'))
  refine ⟨enough, fun fuel hle tablesDone objectsDone => ?_⟩
  obtain ⟨narrowed, hsome, hfilter⟩ := hnarrowed fuel hle tablesDone objectsDone
  refine ⟨narrowed, hsome, ?_⟩
  rw [hfilter, hobjects]
  decide +kernel

/-- The topics that are selected below a database with one topic. -/
def SelectsTopics
    (database name : Str) (pre : Option Str) (objects : List SchemeObject) : Prop :=
  ∀ tablesDone objectsDone, ∃ selection,
    selectTablets asciiInterpreter plainPrinter plainHtml dropPages
      (topicsAnswers database [name] notDescribed) ⟨topicSchemeTypes, pre, false⟩
        tablesDone objectsDone database 1 = some (.ok selection) ∧
    selection.objects = objects

/-- A topic is selected that is not under the prefix, because its name has a backslash,
or because the prefix ends in white space.  Below the root nothing is selected. -/
theorem prefix_selects_others :
    (resolvePrefix "/db".toList (some "/db/a".toList) = .ok (some "/db/a".toList) ∧
      SelectsTopics "/db".toList "a\\b".toList (some "/db/a".toList)
        [⟨"/db/a\\b".toList, "TOPIC".toList⟩] ∧
      atOrUnder "/db/a".toList "/db/a\\b".toList = false) ∧
    (resolvePrefix "/db".toList (some "/db/t /".toList) = .ok (some "/db/t ".toList) ∧
      SelectsTopics "/db".toList "t".toList (some "/db/t ".toList)
        [⟨"/db/t".toList, "TOPIC".toList⟩] ∧
      atOrUnder "/db/t ".toList "/db/t".toList = false) ∧
    (resolvePrefix "/".toList (some "/".toList) = .ok (some "/".toList) ∧
      SelectsTopics "/".toList "t".toList none [⟨"/t".toList, "TOPIC".toList⟩] ∧
      SelectsTopics "/".toList "t".toList (some "/".toList) []) := by
  have hselects : ∀ (start : Str) {database name : Str} {pre : Option Str}
      {objects : List SchemeObject},
      resolveStartPath asciiInterpreter plainPrinter (topicsAnswers database [name] notDescribed)
        database pre = .ok start →
      (collectObjects asciiInterpreter plainPrinter (topicsAnswers database [name] notDescribed)
        ⟨topicSchemeTypes, pre, false⟩ start 1).map (fun run =>
          run.toOption.map fun collected => (collected.objects, collected.nestedTables)) =
        some (some (objects, [])) →
      SelectsTopics database name pre objects := by
    intro start database name pre objects hstart hcollect tablesDone objectsDone
    obtain ⟨selection, hok, hobjects, -⟩ :=
      selectTablets_of_no_tables plainHtml dropPages hstart hcollect tablesDone objectsDone
    exact ⟨selection, hok, hobjects⟩
  refine ⟨⟨by decide +kernel, ?_, by decide⟩, ⟨by decide +kernel, ?_, by decide⟩,
    by decide +kernel, ?_, ?_⟩
  · exact hselects "/db".toList (by decide +kernel) (by decide +kernel)
  · exact hselects "/db".toList (by decide +kernel) (by decide +kernel)
  · exact hselects "/".toList (by decide +kernel) (by decide +kernel)
  · exact hselects "/".toList (by decide +kernel) (by decide +kernel)

end Narrowed

end Tablets
end YdbSnippets
