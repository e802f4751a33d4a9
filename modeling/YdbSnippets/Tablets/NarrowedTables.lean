import YdbSnippets.Tablets.Narrowing

/-!
# What a prefix leaves of the nested discovery

Below a table the prefix is compared with every changefeed, every index and every table of
an index.  What is left out of the search is not below the prefix.
-/

namespace YdbSnippets
namespace Tablets

open Python Text Sorting Firsts Matching

section Narrows

variable {pre : Str}

/-- What the narrowed search finds: the objects that match the prefix. -/
def Narrows (pre : Str) (full narrowed : Found) : Prop :=
  narrowed.objects = full.objects.filter fun object => pathMatchesPrefix object.path (some pre)

/-- If the full search can be carried out, so can the narrowed one. -/
def NarrowsTo (pre : Str) (full narrowed : Except BuiltinError Found) : Prop :=
  ∀ found, full = .ok found → ∃ found', narrowed = .ok found' ∧ Narrows pre found found'

theorem narrows_join_cons
    {full narrowed : Found} {fulls narroweds : List Found} (h : Narrows pre full narrowed)
    (hrest : Narrows pre (Found.join fulls) (Found.join narroweds)) :
    Narrows pre (Found.join (full :: fulls)) (Found.join (narrowed :: narroweds)) := by
  unfold Narrows Found.join at hrest ⊢
  dsimp only at hrest ⊢
  rw [List.flatMap_cons, List.flatMap_cons, List.filter_append, hrest, h]

/-- Items are left out of the search below which nothing matches the prefix. -/
theorem narrows_mapM
    {α : Type} {f g : α → Except BuiltinError Found} {keep : α → Bool} {items : List α}
    {founds : List Found} (h : items.mapM f = .ok founds)
    (hkept : ∀ item ∈ items, keep item = true → NarrowsTo pre (f item) (g item))
    (hdropped : ∀ item ∈ items, keep item = false → ∀ found, f item = .ok found →
      Narrows pre found Found.empty) :
    ∃ founds', (items.filter keep).mapM g = .ok founds' ∧
      Narrows pre (Found.join founds) (Found.join founds') := by
  induction items generalizing founds with
  | nil =>
      cases h
      exact ⟨[], rfl, rfl⟩
  | cons item items ih =>
      rw [List.mapM_cons] at h
      obtain ⟨found, hfound, h⟩ := bind_ok_iff.mp h
      obtain ⟨rest, hrest, h⟩ := bind_ok_iff.mp h
      cases h
      obtain ⟨rest', hrest', hnarrows⟩ := ih hrest
        (fun other hother => hkept other (List.mem_cons_of_mem _ hother))
        (fun other hother => hdropped other (List.mem_cons_of_mem _ hother))
      cases hkeep : keep item with
      | true =>
          obtain ⟨found', hfound', hitem⟩ := hkept item List.mem_cons_self hkeep found hfound
          refine ⟨found' :: rest', ?_, narrows_join_cons hitem hnarrows⟩
          rw [List.filter_cons_of_pos hkeep, List.mapM_cons]
          exact bind_ok_iff.mpr ⟨found', hfound', bind_ok_iff.mpr ⟨rest', hrest', rfl⟩⟩
      | false =>
          refine ⟨rest', ?_, ?_⟩
          · rw [List.filter_cons_of_neg (by simp [hkeep])]
            exact hrest'
          · have hitem := hdropped item List.mem_cons_self hkeep found hfound
            exact narrows_join_cons hitem hnarrows

variable {py : Interpreter} {printer : Printer} {viewer : SchemeAnswers} {search : Search}

theorem narrowsTo_searchBelow
    {path : Str} {next next' : Json → Except BuiltinError Found}
    (h : ∀ described, viewer.describePath path cdcDescribeQuery = .ok described →
      NarrowsTo pre (next described) (next' described)) :
    NarrowsTo pre (searchBelow printer viewer path next)
      (searchBelow printer viewer path next') := by
  intro found hfound
  unfold searchBelow at hfound ⊢
  cases houtcome : describeOutcome printer viewer path cdcDescribeQuery with
  | error e =>
      rw [houtcome] at hfound
      cases hfound
      exact ⟨_, rfl, rfl⟩
  | ok described =>
      rw [houtcome] at hfound
      exact h described (describePath_of_outcome houtcome) found hfound

end Narrows

section Places

variable {py : Interpreter} {printer : Printer} {viewer : SchemeAnswers} {search : Search}
  {database pre path : Str} {parts names : List Str}

/-- The path is that of these names below the database, or goes on behind them. -/
def At (database : Str) (names : List Str) (path : Str) : Prop :=
  ∃ more, (∀ name ∈ names ++ more, IsPlainName name) ∧ path = pathBelow database (names ++ more)

/-- What goes on behind the names. -/
def namesPlace
    (hdescribed : NamesDescribed printer viewer IsPlainName) (database : Str)
    (names : List Str) : Place printer viewer where
  isName := IsPlainName
  named := hdescribed
  indexImplTable := isPlainName_of_getLast (by decide) (by decide) rfl rfl
  streamImpl := isPlainName_of_getLast (by decide) (by decide) rfl rfl
  reaches := At database names
  contains := At database names
  join := by
    rintro _ name ⟨more, hplain, rfl⟩ hname
    refine ⟨more ++ [name], ?_, ?_⟩
    · intro n hn
      rw [← List.append_assoc] at hn
      rcases List.mem_append.mp hn with hn | hn
      · exact hplain n hn
      · rw [List.mem_singleton.mp hn]
        exact hname
    · rw [joinPath_pathBelow fun n hn => (hplain n hn).toIsName, List.append_assoc]
  reaches_of_contains _ := id

theorem at_self
    (hnames : ∀ name ∈ names, IsPlainName name) :
    At database names (pathBelow database names) :=
  ⟨[], by rwa [List.append_nil], by rw [List.append_nil]⟩

/-- Below a path that does not intersect the prefix nothing matches it. -/
theorem IsPrefixBelow.narrows_empty
    (h : IsPrefixBelow database pre parts) (hdatabase : IsDatabasePath database)
    (hnames : ∀ name ∈ names, IsPlainName name)
    (hapart : pathsIntersect (pathBelow database names) (some pre) = false)
    {found : Found} (hfound : ∀ object ∈ found.objects, At database names object.path) :
    Narrows pre found Found.empty := by
  refine (List.filter_eq_nil_iff.mpr fun object hobject hmatches => ?_).symm
  obtain ⟨more, hplain, hpath⟩ := hfound object hobject
  rw [hpath, h.matches_iff hdatabase hplain] at hmatches
  have hintersects := (h.intersects_iff hdatabase hnames).mpr
    (List.prefix_or_prefix_of_prefix hmatches (List.prefix_append _ _))
  rw [hapart] at hintersects
  cases hintersects

end Places

section Nested

variable {py : Interpreter} {printer : Printer} {viewer : SchemeAnswers} {search : Search}
  {database pre path : Str} {parts names : List Str}

theorem filter_full
    (keep : Str → Option Str → Bool) (hkeep : ∀ path, keep path none = true) (paths : List Str) :
    paths.filter (fun path => keep path search.full.pre) = paths :=
  List.filter_eq_self.mpr fun path _ => hkeep path

theorem pqChildrenOfStream_of_full
    {described : Json} {topics : List Str}
    (h : pqChildrenOfStream py printer search.full path described = .ok topics) :
    pqChildrenOfStream py printer search path described =
      .ok (topics.filter fun topic => pathMatchesPrefix topic search.pre) := by
  obtain ⟨children, hchildren, h⟩ := bind_ok_iff.mp h
  obtain ⟨paths, hpaths, h⟩ := bind_ok_iff.mp h
  rw [← Except.ok.inj h, filter_full pathMatchesPrefix fun _ => rfl]
  exact bind_ok_iff.mpr ⟨children, hchildren, bind_ok_iff.mpr ⟨paths, hpaths, rfl⟩⟩

theorem cdcStreamPathsFromTable_of_full
    {described : Json} {streams : List Str}
    (h : cdcStreamPathsFromTable printer search.full path described = .ok streams) :
    cdcStreamPathsFromTable printer search path described =
      .ok (streams.filter fun stream => pathsIntersect stream search.pre) := by
  obtain ⟨entries, hentries, h⟩ := bind_ok_iff.mp h
  obtain ⟨paths, hpaths, h⟩ := bind_ok_iff.mp h
  rw [← Except.ok.inj h, filter_full pathsIntersect fun _ => rfl]
  exact bind_ok_iff.mpr ⟨entries, hentries, bind_ok_iff.mpr ⟨paths, hpaths, rfl⟩⟩

theorem indexPathOf_of_full
    {index : Json} {indexPath : Option Str}
    (h : indexPathOf py printer search.full path index = .ok indexPath) :
    indexPathOf py printer search path index =
      .ok (indexPath.filter fun indexPath => pathsIntersect indexPath search.pre) := by
  unfold indexPathOf at h ⊢
  split at h
  · next hdict =>
      rw [if_pos hdict]
      obtain ⟨mayHave, hmay, h⟩ := bind_ok_iff.mp h
      refine bind_ok_iff.mpr ⟨mayHave, hmay, ?_⟩
      split at h
      · next hnone =>
          rw [if_pos hnone, ← Except.ok.inj h]
          rfl
      · next hsome =>
          rw [if_neg hsome]
          obtain ⟨named, hnamed, h⟩ := bind_ok_iff.mp h
          refine bind_ok_iff.mpr ⟨named, hnamed, ?_⟩
          rw [← Except.ok.inj h]
          cases named with
          | none => rfl
          | some named => rfl
  · next hdict =>
      rw [if_neg hdict, ← Except.ok.inj h]
      rfl

theorem narrowsTo_topicsOfStream
    (hsearch : search.pre = some pre) (stream : Str) :
    NarrowsTo pre (topicsOfStream py printer viewer search.full stream)
      (topicsOfStream py printer viewer search stream) := by
  refine narrowsTo_searchBelow fun described _ => ?_
  intro found h
  obtain ⟨topics, htopics, h⟩ := bind_ok_iff.mp h
  cases h
  refine ⟨_, bind_ok_iff.mpr ⟨_, pqChildrenOfStream_of_full htopics, rfl⟩, ?_⟩
  unfold Narrows
  rw [hsearch, List.filter_map]
  rfl

variable (hdescribed : NamesDescribed printer viewer IsPlainName)
  (hdatabase : IsDatabasePath database) (hpre : IsPrefixBelow database pre parts)
  (hsearch : search.pre = some pre)

include hdescribed hdatabase hpre hsearch

theorem narrowsTo_cdcTopicsUnder
    {owner : Str} {described : Json} (howner : At database names owner)
    (hanswer : viewer.describePath owner cdcDescribeQuery = .ok described) :
    NarrowsTo pre (cdcTopicsUnder py printer viewer search.full owner described)
      (cdcTopicsUnder py printer viewer search owner described) := by
  intro found h
  obtain ⟨streams, hstreams, h⟩ := bind_ok_iff.mp h
  obtain ⟨results, hresults, h⟩ := bind_ok_iff.mp h
  cases h
  have hdropped : ∀ stream ∈ streams, pathsIntersect stream search.pre = false →
      ∀ found, topicsOfStream py printer viewer search.full stream = .ok found →
        Narrows pre found Found.empty := by
    intro stream hstream hapart found hfound
    obtain ⟨more, hplain, rfl⟩ := (namesPlace hdescribed database names).contains_streams
      hanswer howner hstreams hstream
    rw [hsearch] at hapart
    refine hpre.narrows_empty hdatabase hplain hapart ?_
    exact (namesPlace hdescribed database (names ++ more)).holds_topicsOfStream (at_self hplain)
      hfound
  obtain ⟨results', hresults', hnarrows⟩ := narrows_mapM hresults
    (fun stream _ _ => narrowsTo_topicsOfStream hsearch stream) hdropped
  exact ⟨_, bind_ok_iff.mpr ⟨_, cdcStreamPathsFromTable_of_full hstreams,
    bind_ok_iff.mpr ⟨results', hresults', rfl⟩⟩, hnarrows⟩

theorem narrowsTo_topicsOfImpl
    {impl : Str} (himpl : At database names impl) :
    NarrowsTo pre (topicsOfImpl py printer viewer search.full impl)
      (topicsOfImpl py printer viewer search impl) := by
  intro found h
  obtain ⟨more, hplain, rfl⟩ := himpl
  cases hintersects : pathsIntersect (pathBelow database (names ++ more)) search.pre with
  | true =>
      unfold topicsOfImpl at h ⊢
      rw [hintersects]
      change (if (search.wantCdc && true) = true then _ else _) = _ at h
      by_cases hwant : (search.wantCdc && true) = true
      · rw [if_pos hwant] at h ⊢
        refine narrowsTo_searchBelow (fun described hanswer => ?_) found h
        exact narrowsTo_cdcTopicsUnder hdescribed hdatabase hpre hsearch (at_self hplain) hanswer
      · rw [if_neg hwant] at h ⊢
        cases h
        exact ⟨Found.empty, rfl, rfl⟩
  | false =>
      refine ⟨Found.empty, ?_, ?_⟩
      · unfold topicsOfImpl
        rw [hintersects, Bool.and_false]
        rfl
      · rw [hsearch] at hintersects
        refine hpre.narrows_empty hdatabase hplain hintersects ?_
        exact (namesPlace hdescribed database (names ++ more)).holds_topicsOfImpl (at_self hplain) h

theorem narrowsTo_searchImpl
    {impl : Str} (himpl : At database names impl) :
    NarrowsTo pre (searchImpl py printer viewer search.full impl)
      (searchImpl py printer viewer search impl) := by
  intro found h
  obtain ⟨topics, htopics, h⟩ := bind_ok_iff.mp h
  cases h
  obtain ⟨topics', htopics', hnarrows⟩ :=
    narrowsTo_topicsOfImpl hdescribed hdatabase hpre hsearch himpl topics htopics
  refine ⟨_, bind_ok_iff.mpr ⟨topics', htopics', rfl⟩, narrows_join_cons ?_
    (narrows_join_cons hnarrows rfl)⟩
  unfold Narrows
  rw [hsearch]
  change (if (search.wantIndexTablets && pathMatchesPrefix impl (some pre)) = true then _ else _) =
    List.filter _ (if (search.wantIndexTablets && true) = true then _ else _)
  cases search.wantIndexTablets with
  | false => rfl
  | true =>
      cases hmatches : pathMatchesPrefix impl (some pre) with
      | true => simp [hmatches]
      | false => simp [hmatches]

theorem narrowsTo_searchDescribedIndex
    {table indexPath : Str} {index tableDescribed described : Json}
    (htable : viewer.describePath table cdcDescribeQuery = .ok tableDescribed)
    (hshows : Shows tableDescribed index) (hindex : At database names indexPath)
    (hanswer : viewer.describePath indexPath cdcDescribeQuery = .ok described) :
    NarrowsTo pre (searchDescribedIndex py printer viewer search.full indexPath index described)
      (searchDescribedIndex py printer viewer search indexPath index described) := by
  intro found h
  obtain ⟨impls, himpls, h⟩ := bind_ok_iff.mp h
  obtain ⟨results, hresults, h⟩ := bind_ok_iff.mp h
  cases h
  have hkept : ∀ impl ∈ impls, (fun _ : Str => true) impl = true →
      NarrowsTo pre (searchImpl py printer viewer search.full impl)
        (searchImpl py printer viewer search impl) := by
    intro impl himpl _
    have hplace := (namesPlace hdescribed database names).contains_indexImplPaths
      htable hshows hanswer hindex himpls himpl
    exact narrowsTo_searchImpl hdescribed hdatabase hpre hsearch hplace
  obtain ⟨results', hresults', hnarrows⟩ := narrows_mapM hresults hkept (by simp)
  rw [List.filter_eq_self.mpr fun _ _ => rfl] at hresults'
  exact ⟨_, bind_ok_iff.mpr ⟨impls, himpls, bind_ok_iff.mpr ⟨results', hresults', rfl⟩⟩, hnarrows⟩

theorem narrowsTo_searchIndex
    {table : Str} {index tableDescribed : Json} (htable : At database names table)
    (hanswer : viewer.describePath table cdcDescribeQuery = .ok tableDescribed)
    (hshows : Shows tableDescribed index) :
    NarrowsTo pre (searchIndex py printer viewer search.full table index)
      (searchIndex py printer viewer search table index) := by
  intro found h
  obtain ⟨indexPath, hindexPath, h⟩ := bind_ok_iff.mp h
  have hnarrowed := indexPathOf_of_full hindexPath
  cases indexPath with
  | none =>
      cases h
      exact ⟨Found.empty, bind_ok_iff.mpr ⟨none, hnarrowed, rfl⟩, rfl⟩
  | some indexPath =>
      obtain ⟨more, hplain, rfl⟩ := (namesPlace hdescribed database names).contains_indexPathOf
        hanswer hshows htable hindexPath
      have hself : (namesPlace hdescribed database (names ++ more)).reaches
          (pathBelow database (names ++ more)) := at_self hplain
      cases hintersects : pathsIntersect (pathBelow database (names ++ more)) search.pre with
      | true =>
          simp only [Option.filter_some, hintersects, if_true] at hnarrowed
          have hbelow : NarrowsTo pre
              (searchBelow printer viewer (pathBelow database (names ++ more))
                (searchDescribedIndex py printer viewer search.full
                  (pathBelow database (names ++ more)) index))
              (searchBelow printer viewer (pathBelow database (names ++ more))
                (searchDescribedIndex py printer viewer search
                  (pathBelow database (names ++ more)) index)) := by
            refine narrowsTo_searchBelow fun described hindex => ?_
            exact narrowsTo_searchDescribedIndex hdescribed hdatabase hpre hsearch hanswer hshows
              hself hindex
          obtain ⟨found', hfound', hnarrows⟩ := hbelow found h
          exact ⟨found', bind_ok_iff.mpr ⟨_, hnarrowed, hfound'⟩, hnarrows⟩
      | false =>
          simp only [Option.filter_some, hintersects, Bool.false_eq_true, if_false] at hnarrowed
          refine ⟨Found.empty, bind_ok_iff.mpr ⟨none, hnarrowed, rfl⟩, ?_⟩
          rw [hsearch] at hintersects
          have hholds : (namesPlace hdescribed database (names ++ more)).Holds found := by
            refine Place.holds_searchBelow h fun described hindex found h => ?_
            exact Place.holds_searchDescribedIndex hanswer hshows hindex hself h
          exact hpre.narrows_empty hdatabase hplain hintersects hholds

/-- The nested discovery with the prefix finds what the full one finds and matches it. -/
theorem narrowsTo_discoverNestedForTable
    {table : Str} (htable : At database names table) :
    NarrowsTo pre (discoverNestedForTable py printer viewer search.full table)
      (discoverNestedForTable py printer viewer search table) := by
  refine narrowsTo_searchBelow fun described hanswer => ?_
  intro found h
  obtain ⟨topics, htopics, h⟩ := bind_ok_iff.mp h
  obtain ⟨indexes, hindexes, h⟩ := bind_ok_iff.mp h
  obtain ⟨results, hresults, h⟩ := bind_ok_iff.mp h
  cases h
  have htopicsNarrow : NarrowsTo pre
      (topicsOfTable py printer viewer search.full table described)
      (topicsOfTable py printer viewer search table described) := by
    unfold topicsOfTable
    change NarrowsTo pre (if search.wantCdc = true then _ else _) _
    split
    · exact narrowsTo_cdcTopicsUnder hdescribed hdatabase hpre hsearch htable hanswer
    · intro found h
      cases h
      exact ⟨Found.empty, rfl, rfl⟩
  obtain ⟨topics', htopics', hfirst⟩ := htopicsNarrow topics htopics
  have hkept : ∀ index ∈ indexes, (fun _ : Json => true) index = true →
      NarrowsTo pre (searchIndex py printer viewer search.full table index)
        (searchIndex py printer viewer search table index) := by
    intro index hindex _
    exact narrowsTo_searchIndex hdescribed hdatabase hpre hsearch htable hanswer
      (.index hindexes hindex)
  obtain ⟨results', hresults', hnarrows⟩ := narrows_mapM hresults hkept (by simp)
  rw [List.filter_eq_self.mpr fun _ _ => rfl] at hresults'
  exact ⟨_, bind_ok_iff.mpr ⟨topics', htopics', bind_ok_iff.mpr ⟨indexes, hindexes,
    bind_ok_iff.mpr ⟨results', hresults', rfl⟩⟩⟩, narrows_join_cons hfirst hnarrows⟩

end Nested

end Tablets
end YdbSnippets
