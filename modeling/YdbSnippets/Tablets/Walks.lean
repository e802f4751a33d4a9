import YdbSnippets.Tablets.Discovery
import Mathlib.Data.List.ReduceOption

/-!
# The walk over the scheme directories

The loop of `collect_objects` is a walk with a queue.  The paths of the walk are
the start with names behind it, and what is found below one table is not found
below another.
-/

namespace YdbSnippets
namespace Tablets

open Python Text Sorting Firsts Matching

section Names

/-- A name of an object: it is not empty and has no slash. -/
structure IsName (name : Str) : Prop where
  ne_nil : name ≠ []
  noSlash : '/' ∉ name

/-- The names, each behind a slash. -/
def slashed (names : List Str) : Str :=
  names.flatMap fun name => '/' :: name

@[simp] theorem slashed_nil : slashed [] = [] := rfl

theorem slashed_append (names more : List Str) :
    slashed (names ++ more) = slashed names ++ slashed more :=
  List.flatMap_append

theorem slashed_singleton (name : Str) : slashed [name] = '/' :: name :=
  List.flatMap_singleton _ _

theorem slashed_cons (name : Str) (names : List Str) :
    slashed (name :: names) = '/' :: name ++ slashed names := rfl

/-- The names are read off the text. -/
theorem components_slashed
    {names : List Str}
    (h : ∀ name ∈ names, IsName name) :
    components '/' (slashed names) = names := by
  induction names using List.reverseRecOn with
  | nil => simp
  | append_singleton names name ih =>
      have hname := h name (by simp)
      rw [slashed_append, slashed_singleton, components_append_cons,
        ih fun n hn => h n (List.mem_append_left _ hn),
        components_word hname.noSlash hname.ne_nil]

theorem slashed_inj
    {names more : List Str}
    (hnames : ∀ name ∈ names, IsName name) (hmore : ∀ name ∈ more, IsName name)
    (h : slashed names = slashed more) :
    names = more := by
  rw [← components_slashed hnames, h, components_slashed hmore]

/-- A text of names that ends where a name ends begins with these names. -/
theorem prefix_of_slashed_prefix
    {names more : List Str}
    (hnames : ∀ name ∈ names, IsName name) (hmore : ∀ name ∈ more, IsName name)
    (h : slashed names ++ ['/'] <+: slashed more) :
    names <+: more := by
  obtain ⟨rest, hrest⟩ := h
  rw [List.append_assoc, List.singleton_append] at hrest
  refine ⟨components '/' rest, ?_⟩
  have hcomponents := congrArg (components '/') hrest
  rwa [components_append_cons, components_slashed hnames, components_slashed hmore]
    at hcomponents

/-- The path of these names below a directory. -/
def pathBelow (start : Str) (names : List Str) : Str :=
  if names = [] then start else rstrip '/' start ++ slashed names

@[simp] theorem pathBelow_nil (start : Str) : pathBelow start [] = start := rfl

theorem rstrip_pathBelow
    (start : Str) {names : List Str}
    (h : ∀ name ∈ names, IsName name) :
    rstrip '/' (pathBelow start names) = rstrip '/' start ++ slashed names := by
  cases names using List.reverseRecOn with
  | nil => simp
  | append_singleton names name =>
      have hname := h name (by simp)
      obtain ⟨init, c, rfl⟩ : ∃ init c, name = init ++ [c] :=
        ⟨name.dropLast, name.getLast hname.ne_nil, (List.dropLast_append_getLast _).symm⟩
      have hc : c ≠ '/' := by
        rintro rfl
        exact hname.noSlash (by simp)
      unfold pathBelow
      rw [if_neg (by simp), slashed_append, slashed_singleton, ← List.cons_append,
        ← List.append_assoc, ← List.append_assoc, rstrip_append_of_ne _ hc]

theorem joinPath_pathBelow
    {start : Str} {names : List Str}
    (h : ∀ name ∈ names, IsName name) (name : Str) :
    joinPath (pathBelow start names) name = pathBelow start (names ++ [name]) := by
  unfold joinPath
  rw [rstrip_pathBelow start h, pathBelow, if_neg (by simp), slashed_append, slashed_singleton,
    List.append_assoc]

theorem pathBelow_inj
    {start : Str} {names more : List Str}
    (hnames : ∀ name ∈ names, IsName name) (hmore : ∀ name ∈ more, IsName name)
    (h : pathBelow start names = pathBelow start more) :
    names = more := by
  have hstripped := congrArg (rstrip '/') h
  rw [rstrip_pathBelow start hnames, rstrip_pathBelow start hmore] at hstripped
  exact slashed_inj hnames hmore (List.append_cancel_left hstripped)

end Names

section Below

/-- The path continues behind the owner's. -/
def Below (owner path : Str) : Prop :=
  owner ++ ['/'] <+: path

/-- The owner itself is what `join_path` makes of it. -/
def IsOwner (owner : Str) : Prop :=
  rstrip '/' owner = owner

theorem below_joinPath
    {owner : Str}
    (howner : IsOwner owner) (name : Str) :
    Below owner (joinPath owner name) := by
  unfold joinPath Below
  rw [howner]
  exact ⟨name, by simp⟩

/-- What is joined to a path below the owner is below the owner. -/
theorem Below.joinPath
    {owner path : Str}
    (h : Below owner path) (howner : IsOwner owner) (name : Str) :
    Below owner (joinPath path name) := by
  obtain ⟨rest, rfl⟩ := h
  have hstrip : owner <+: rstrip '/' (owner ++ ['/'] ++ rest) := by
    induction rest using List.reverseRecOn with
    | nil =>
        rw [List.append_nil, rstrip_append_self, howner]
    | append_singleton rest c ih =>
        by_cases hc : c = '/'
        · subst hc
          rw [← List.append_assoc, rstrip_append_self]
          exact ih
        · rw [← List.append_assoc, rstrip_append_of_ne _ hc, List.append_assoc,
            List.append_assoc]
          exact List.prefix_append _ _
  obtain ⟨more, hmore⟩ := hstrip
  have hpre := rstrip_prefix '/' (owner ++ ['/'] ++ rest)
  unfold Tablets.joinPath Below
  rw [← hmore, List.append_assoc, List.prefix_append_right_inj] at hpre
  rw [← hmore, List.append_assoc, List.prefix_append_right_inj]
  cases more with
  | nil => exact ⟨name, rfl⟩
  | cons c more =>
      obtain ⟨rfl, -⟩ := List.cons_prefix_cons.mp hpre
      exact ⟨more ++ '/' :: name, rfl⟩

end Below

section FoundBelow

variable {py : Interpreter} {printer : Printer} {viewer : SchemeAnswers} {search : Search}

/-- The entries of a describe whose names the nested discovery reads. -/
inductive Shows (described : Json) : Json → Prop
  | stream
      {entries : List Json} {entry : Json}
      (hentries : streamEntries described = .ok entries) (hmem : entry ∈ entries) :
      Shows described entry
  | streamChild
      {entries : List Json} {entry : Json}
      (hentries : streamChildren described = .ok entries) (hmem : entry ∈ entries) :
      Shows described entry
  | index
      {entries : List Json} {entry : Json}
      (hentries : indexEntries described = .ok entries) (hmem : entry ∈ entries) :
      Shows described entry
  | impl
      {index entry : Json} {entries : List Json}
      (hindex : Shows described index)
      (hentries : implDescriptions index = .ok entries) (hmem : entry ∈ entries) :
      Shows described entry
  | indexChild
      {description entry : Json} {entries : List Json}
      (hdescription : pathDescription described = .ok description)
      (hentries : listedChildren description = .ok entries) (hmem : entry ∈ entries) :
      Shows described entry

/-- The names of such entries. -/
def NamesDescribed
    (printer : Printer) (viewer : SchemeAnswers) (isName : Str → Prop) : Prop :=
  ∀ path described, viewer.describePath path cdcDescribeQuery = .ok described →
    ∀ entry, Shows described entry →
      ∀ name, entryName printer entry = .ok name → name ≠ [] → isName name

/-- Paths that stay in a place when a name is joined to them. -/
structure Place (printer : Printer) (viewer : SchemeAnswers) where
  isName : Str → Prop
  named : NamesDescribed printer viewer isName
  indexImplTable : isName "indexImplTable".toList
  streamImpl : isName "streamImpl".toList
  reaches : Str → Prop
  contains : Str → Prop
  join : ∀ path name, reaches path → isName name → contains (joinPath path name)
  reaches_of_contains : ∀ path, contains path → reaches path

variable {place : Place printer viewer}

/-- All objects that were found are in the place. -/
def Place.Holds (place : Place printer viewer) (found : Found) : Prop :=
  ∀ object ∈ found.objects, place.contains object.path

theorem Place.holds_empty (errors : List (Str × DescribeError)) :
    place.Holds ⟨[], errors⟩ :=
  fun _ hobject => absurd hobject List.not_mem_nil

theorem Place.holds_join
    {results : List Found}
    (h : ∀ found ∈ results, place.Holds found) :
    place.Holds (Found.join results) := by
  intro object hobject
  obtain ⟨found, hfound, hmem⟩ := List.mem_flatMap.mp hobject
  exact h found hfound object hmem

/-- The search of a list of items finds what the searches of the items find. -/
theorem Place.holds_mapM
    {α : Type} {f : α → Except BuiltinError Found} {items : List α}
    {results : List Found}
    (h : items.mapM f = .ok results)
    (hitems : ∀ item ∈ items, ∀ found, f item = .ok found → place.Holds found) :
    place.Holds (Found.join results) := by
  refine holds_join ?_
  intro found hfound
  obtain ⟨item, hitem, hok⟩ := exists_of_forall₂_right (mapM_ok_iff.mp h) hfound
  exact hitems item hitem found hok

/-- A describe that is read was answered. -/
theorem describePath_of_outcome
    {path query : Str} {described : Json}
    (h : describeOutcome printer viewer path query = .ok described) :
    viewer.describePath path query = .ok described := by
  unfold describeOutcome at h
  split at h
  · cases h
  · next answer hanswer =>
      split at h
      · cases h
        exact hanswer
      · split at h
        · cases h
        · cases h

theorem Place.holds_searchBelow
    {path : Str} {next : Json → Except BuiltinError Found} {found : Found}
    (h : searchBelow printer viewer path next = .ok found)
    (hnext : ∀ described, viewer.describePath path cdcDescribeQuery = .ok described →
      ∀ found, next described = .ok found → place.Holds found) :
    place.Holds found := by
  unfold searchBelow at h
  split at h
  · cases h
    exact holds_empty _
  · next described houtcome => exact hnext described (describePath_of_outcome houtcome) found h

/-- The path of an entry that a describe shows. -/
theorem Place.contains_namedPath
    {owner parent path : Str} {keep : Json → Except BuiltinError Bool} {described entry : Json}
    (hdescribed : viewer.describePath owner cdcDescribeQuery = .ok described)
    (hshows : Shows described entry) (hparent : place.reaches parent)
    (h : namedPath printer parent keep entry = .ok (some path)) :
    place.contains path := by
  obtain ⟨name, hname, h⟩ := bind_ok_iff.mp h
  split at h
  · cases h
  · next hne =>
      obtain ⟨kept, -, h⟩ := bind_ok_iff.mp h
      cases kept with
      | false => cases h
      | true =>
          cases h
          exact place.join parent name hparent
            (place.named owner described hdescribed entry hshows name hname hne)

theorem Place.contains_namedPaths
    {owner parent path : Str} {keep : Json → Except BuiltinError Bool} {described : Json}
    {entries : List Json} {paths : List Str}
    (hdescribed : viewer.describePath owner cdcDescribeQuery = .ok described)
    (hshows : ∀ entry ∈ entries, Shows described entry) (hparent : place.reaches parent)
    (h : namedPaths printer parent keep entries = .ok paths)
    (hpath : path ∈ paths) :
    place.contains path := by
  obtain ⟨found, hfound, h⟩ := bind_ok_iff.mp h
  cases h
  obtain ⟨entry, hmem, hentry⟩ :=
    exists_of_forall₂_right (mapM_ok_iff.mp hfound) (List.reduceOption_mem_iff.mp hpath)
  exact contains_namedPath hdescribed (hshows entry hmem) hparent hentry

theorem Place.contains_pqChildren
    {stream path : Str} {described : Json} {topics : List Str}
    (hdescribed : viewer.describePath stream cdcDescribeQuery = .ok described)
    (hstream : place.reaches stream)
    (h : pqChildrenOfStream py printer search stream described = .ok topics)
    (hpath : path ∈ topics) :
    place.contains path := by
  obtain ⟨children, hchildren, h⟩ := bind_ok_iff.mp h
  obtain ⟨paths, hpaths, h⟩ := bind_ok_iff.mp h
  cases h
  have hpath := (List.mem_filter.mp hpath).1
  split at hpath
  · rw [List.mem_singleton.mp hpath]
    exact place.join stream _ hstream place.streamImpl
  · exact contains_namedPaths hdescribed (fun entry => .streamChild hchildren) hstream hpaths
      hpath

theorem Place.holds_topicsOfStream
    {stream : Str} {found : Found}
    (hstream : place.reaches stream)
    (h : topicsOfStream py printer viewer search stream = .ok found) :
    place.Holds found := by
  refine holds_searchBelow h ?_
  intro described hdescribed found h
  obtain ⟨topics, htopics, h⟩ := bind_ok_iff.mp h
  cases h
  intro object hobject
  obtain ⟨path, hpath, rfl⟩ := List.mem_map.mp hobject
  exact contains_pqChildren hdescribed hstream htopics hpath

theorem Place.contains_streams
    {owner path : Str} {described : Json} {streams : List Str}
    (hdescribed : viewer.describePath owner cdcDescribeQuery = .ok described)
    (howner : place.reaches owner)
    (h : cdcStreamPathsFromTable printer search owner described = .ok streams)
    (hpath : path ∈ streams) :
    place.contains path := by
  obtain ⟨entries, hentries, h⟩ := bind_ok_iff.mp h
  obtain ⟨paths, hpaths, h⟩ := bind_ok_iff.mp h
  cases h
  exact contains_namedPaths hdescribed (fun entry => .stream hentries) howner hpaths
    (List.mem_filter.mp hpath).1

theorem Place.holds_cdcTopicsUnder
    {owner : Str} {described : Json} {found : Found}
    (hdescribed : viewer.describePath owner cdcDescribeQuery = .ok described)
    (howner : place.reaches owner)
    (h : cdcTopicsUnder py printer viewer search owner described = .ok found) :
    place.Holds found := by
  obtain ⟨streams, hstreams, h⟩ := bind_ok_iff.mp h
  obtain ⟨results, hresults, h⟩ := bind_ok_iff.mp h
  cases h
  refine holds_mapM hresults ?_
  intro stream hstream found hfound
  have hcontains := contains_streams hdescribed howner hstreams hstream
  exact holds_topicsOfStream (place.reaches_of_contains stream hcontains) hfound

theorem Place.holds_topicsOfImpl
    {impl : Str} {found : Found}
    (himpl : place.reaches impl)
    (h : topicsOfImpl py printer viewer search impl = .ok found) :
    place.Holds found := by
  unfold topicsOfImpl at h
  split at h
  · refine holds_searchBelow h ?_
    intro described hdescribed found h
    exact holds_cdcTopicsUnder hdescribed himpl h
  · cases h
    exact holds_empty _

theorem Place.holds_searchImpl
    {impl : Str} {found : Found}
    (himpl : place.contains impl)
    (h : searchImpl py printer viewer search impl = .ok found) :
    place.Holds found := by
  obtain ⟨topics, htopics, h⟩ := bind_ok_iff.mp h
  cases h
  refine holds_join (List.forall_mem_cons.mpr ⟨?_, List.forall_mem_singleton.mpr ?_⟩)
  · intro object hobject
    split at hobject
    · rw [List.mem_singleton.mp hobject]
      exact himpl
    · cases hobject
  · exact holds_topicsOfImpl (place.reaches_of_contains impl himpl) htopics

/-- The tables of an index are below it. -/
theorem Place.contains_indexImplPaths
    {table indexPath impl : Str} {index tableDescribed described : Json} {impls : List Str}
    (htable : viewer.describePath table cdcDescribeQuery = .ok tableDescribed)
    (hshows : Shows tableDescribed index)
    (hdescribed : viewer.describePath indexPath cdcDescribeQuery = .ok described)
    (hindex : place.reaches indexPath)
    (h : indexImplPaths py printer indexPath index described = .ok impls)
    (himpl : impl ∈ impls) :
    place.contains impl := by
  obtain ⟨description, hdescription, h⟩ := bind_ok_iff.mp h
  obtain ⟨listed, -, h⟩ := bind_ok_iff.mp h
  cases listed with
  | true =>
      obtain ⟨children, hchildren, h⟩ := bind_ok_iff.mp h
      exact contains_namedPaths hdescribed (fun entry => .indexChild hdescription hchildren)
        hindex h himpl
  | false =>
      obtain ⟨descriptions, hdescriptions, h⟩ := bind_ok_iff.mp h
      obtain ⟨named, hnamed, h⟩ := bind_ok_iff.mp h
      cases h
      split at himpl
      · exact contains_namedPaths htable (fun entry => .impl hshows hdescriptions) hindex hnamed
          himpl
      · rw [List.mem_singleton.mp himpl]
        exact place.join indexPath _ hindex place.indexImplTable

theorem Place.contains_indexPathOf
    {table indexPath : Str} {index tableDescribed : Json}
    (htable : viewer.describePath table cdcDescribeQuery = .ok tableDescribed)
    (hshows : Shows tableDescribed index)
    (hreaches : place.reaches table)
    (h : indexPathOf py printer search table index = .ok (some indexPath)) :
    place.contains indexPath := by
  unfold indexPathOf at h
  split at h
  · obtain ⟨mayHave, -, h⟩ := bind_ok_iff.mp h
    split at h
    · cases h
    · obtain ⟨path, hnamed, h⟩ := bind_ok_iff.mp h
      obtain ⟨rfl, -⟩ := Option.filter_eq_some_iff.mp (Except.ok.inj h)
      exact contains_namedPath htable hshows hreaches hnamed
  · cases h

theorem Place.holds_searchDescribedIndex
    {table indexPath : Str} {index tableDescribed described : Json} {found : Found}
    (htable : viewer.describePath table cdcDescribeQuery = .ok tableDescribed)
    (hshows : Shows tableDescribed index)
    (hdescribed : viewer.describePath indexPath cdcDescribeQuery = .ok described)
    (hindex : place.reaches indexPath)
    (h : searchDescribedIndex py printer viewer search indexPath index described = .ok found) :
    place.Holds found := by
  obtain ⟨impls, himpls, h⟩ := bind_ok_iff.mp h
  obtain ⟨results, hresults, h⟩ := bind_ok_iff.mp h
  cases h
  refine holds_mapM hresults ?_
  intro impl himpl found h
  have hcontains := contains_indexImplPaths htable hshows hdescribed hindex himpls himpl
  exact holds_searchImpl hcontains h

theorem Place.holds_searchIndex
    {table : Str} {index tableDescribed : Json} {found : Found}
    (htable : viewer.describePath table cdcDescribeQuery = .ok tableDescribed)
    (hshows : Shows tableDescribed index)
    (hreaches : place.reaches table)
    (h : searchIndex py printer viewer search table index = .ok found) :
    place.Holds found := by
  obtain ⟨path, hpath, h⟩ := bind_ok_iff.mp h
  cases path with
  | none =>
      cases h
      exact holds_empty _
  | some indexPath =>
      have hcontains := contains_indexPathOf htable hshows hreaches hpath
      refine holds_searchBelow h ?_
      intro described hdescribed found h
      exact holds_searchDescribedIndex htable hshows hdescribed
        (place.reaches_of_contains indexPath hcontains) h

/-- Everything found below a table is in the place of the table. -/
theorem Place.holds_discoverNestedForTable
    {table : Str} {found : Found}
    (hreaches : place.reaches table)
    (h : discoverNestedForTable py printer viewer search table = .ok found) :
    place.Holds found := by
  refine holds_searchBelow h ?_
  intro described hdescribed found h
  obtain ⟨topics, htopics, h⟩ := bind_ok_iff.mp h
  obtain ⟨indexes, hindexes, h⟩ := bind_ok_iff.mp h
  obtain ⟨results, hresults, h⟩ := bind_ok_iff.mp h
  cases h
  refine holds_join (List.forall_mem_cons.mpr ⟨?_, ?_⟩)
  · unfold topicsOfTable at htopics
    split at htopics
    · exact holds_cdcTopicsUnder hdescribed hreaches htopics
    · cases htopics
      exact holds_empty _
  · intro found hfound
    obtain ⟨index, hmem, hindex⟩ := exists_of_forall₂_right (mapM_ok_iff.mp hresults) hfound
    exact holds_searchIndex hdescribed (.index hindexes hmem) hreaches hindex

/-- The path is the owner's or below it. -/
def AtOrBelow (owner path : Str) : Prop :=
  path = owner ∨ Below owner path

/-- What is below a table. -/
def belowPlace
    (printer : Printer) (viewer : SchemeAnswers) {owner : Str} (howner : IsOwner owner) :
    Place printer viewer where
  isName _ := True
  named _ _ _ _ _ _ _ _ := trivial
  indexImplTable := trivial
  streamImpl := trivial
  reaches := AtOrBelow owner
  contains := Below owner
  join path name h _ := by
    rcases h with rfl | h
    · exact below_joinPath howner name
    · exact h.joinPath howner name
  reaches_of_contains _ := Or.inr

/-- Everything found below a table has the path of the table in front. -/
theorem discoverNestedForTable_below
    {table : Str} {found : Found}
    (howner : IsOwner table)
    (h : discoverNestedForTable py printer viewer search table = .ok found) :
    ∀ object ∈ found.objects, Below table object.path := by
  have hreaches : (belowPlace printer viewer howner).reaches table := Or.inl rfl
  exact Place.holds_discoverNestedForTable hreaches h

end FoundBelow

section Loop

variable {py : Interpreter} {printer : Printer} {viewer : SchemeAnswers} {search : Search}

/-- What follows a path in the walk; a listing that cannot be read ends it. -/
def nextOf
    (py : Interpreter) (printer : Printer) (viewer : SchemeAnswers) (search : Search)
    (path : Str) : List Str :=
  match visit py printer viewer search path with
  | .ok v => v.next
  | .error _ => []

/-- The visits of the paths, none of which has failed. -/
def Visited
    (py : Interpreter) (printer : Printer) (viewer : SchemeAnswers) (search : Search)
    (paths : List Str) (visits : List Visit) : Prop :=
  List.Forall₂ (fun path v => visit py printer viewer search path = .ok v) paths visits

/-- What the loop has gathered after these visits. -/
def gathered (queue seen : List Str) (visits : List Visit) : CollectState where
  queue := queue
  seenDirs := seen
  objects := visits.flatMap Visit.objects
  listingErrors := visits.flatMap Visit.listingErrors
  nestedTables := visits.flatMap Visit.nestedTables

/-- All that a turn of the loop can do: it skips a path, it fails, or it visits
the path as a walk with a queue does. -/
theorem collectStep_cases
    (path : Str) (rest : List Str) {seen : List Str} {visits : List Visit}
    (hvisited : Visited py printer viewer search seen visits) :
    (∃ e, path ∉ seen ∧ visit py printer viewer search path = .error e ∧
      collectStep py printer viewer search (gathered (path :: rest) seen visits) = .error e) ∨
    (∃ visits', Visited py printer viewer search
        (Worklist.step (nextOf py printer viewer search) ⟨path :: rest, seen⟩).seen visits' ∧
      collectStep py printer viewer search (gathered (path :: rest) seen visits) =
        .ok (gathered
          (Worklist.step (nextOf py printer viewer search) ⟨path :: rest, seen⟩).queue
          (Worklist.step (nextOf py printer viewer search) ⟨path :: rest, seen⟩).seen
          visits')) := by
  by_cases hseen : path ∈ seen
  · right
    refine ⟨visits, ?_, ?_⟩
    · simpa [Worklist.step, hseen] using hvisited
    · simp [collectStep, gathered, Worklist.step, hseen]
  · cases hvisit : visit py printer viewer search path with
    | error e =>
        left
        refine ⟨e, hseen, rfl, ?_⟩
        simp [collectStep, gathered, hseen, hvisit, bind, Except.bind]
    | ok v =>
        right
        refine ⟨visits ++ [v], ?_, ?_⟩
        · simp only [Worklist.step, hseen, if_false]
          exact List.rel_append hvisited (List.Forall₂.cons hvisit List.Forall₂.nil)
        · simp [collectStep, gathered, Worklist.step, hseen, hvisit, nextOf, bind, Except.bind,
            pure, Except.pure]

/-- When the loop is over, it has gathered the visits of a walk with a queue, or
one of these visits has failed. -/
theorem collectLoop_of_run
    {fuel : Nat} {queue seen paths : List Str} {visits : List Visit}
    (hvisited : Visited py printer viewer search seen visits)
    (hrun : Worklist.run (nextOf py printer viewer search) fuel ⟨queue, seen⟩ = some paths) :
    (∃ visits', Visited py printer viewer search paths visits' ∧
      collectLoop py printer viewer search fuel (gathered queue seen visits) =
        some (.ok (gathered [] paths visits'))) ∨
    (∃ path e, visit py printer viewer search path = .error e ∧
      collectLoop py printer viewer search fuel (gathered queue seen visits) =
        some (.error e)) := by
  induction fuel generalizing queue seen visits with
  | zero =>
      cases queue with
      | nil =>
          obtain rfl : seen = paths := by simpa [Worklist.run] using hrun
          exact Or.inl ⟨visits, hvisited, rfl⟩
      | cons path rest => simp [Worklist.run] at hrun
  | succ fuel ih =>
      cases queue with
      | nil =>
          obtain rfl : seen = paths := by simpa [Worklist.run] using hrun
          exact Or.inl ⟨visits, hvisited, rfl⟩
      | cons path rest =>
          have hne : (gathered (path :: rest) seen visits).queue ≠ [] :=
            List.cons_ne_nil path rest
          rw [Worklist.run, if_neg (List.cons_ne_nil path rest)] at hrun
          rcases collectStep_cases path rest hvisited with
            ⟨e, -, hvisit, hstep⟩ | ⟨visits', hvisited', hstep⟩
          · rw [collectLoop, if_neg hne, hstep]
            exact Or.inr ⟨path, e, hvisit, rfl⟩
          · rw [collectLoop, if_neg hne, hstep]
            exact ih hvisited' hrun

/-- More turns do not change the result. -/
theorem collectLoop_mono
    {fuel more : Nat} {s : CollectState} {result : Except BuiltinError CollectState}
    (h : collectLoop py printer viewer search fuel s = some result)
    (hle : fuel ≤ more) :
    collectLoop py printer viewer search more s = some result := by
  induction fuel generalizing s more with
  | zero =>
      unfold collectLoop at h
      split at h
      · next hqueue =>
          cases more with
          | zero => rw [collectLoop, if_pos hqueue, h]
          | succ more => rw [collectLoop, if_pos hqueue, h]
      · cases h
  | succ fuel ih =>
      obtain ⟨more, rfl⟩ : ∃ m, more = m + 1 := ⟨more - 1, by omega⟩
      unfold collectLoop at h ⊢
      split at h
      · next hqueue => rw [if_pos hqueue, h]
      · next hqueue =>
          rw [if_neg hqueue]
          split at h
          · exact h
          · exact ih h (by omega)

/-- Finitely many paths are listed. -/
def FinitelyListed (viewer : SchemeAnswers) : Prop :=
  ∃ paths : List Str, ∀ path data, viewer.listDirectory path = .ok data → path ∈ paths

theorem listed_of_mem_nextOf
    {path next : Str}
    (h : next ∈ nextOf py printer viewer search path) :
    ∃ data, viewer.listDirectory path = .ok data := by
  unfold nextOf visit at h
  cases hlist : viewer.listDirectory path with
  | error exc => simp [hlist] at h
  | ok data => exact ⟨data, rfl⟩

/-- The walk ends when finitely many paths are listed. -/
theorem exists_run_of_finitelyListed
    (hfinite : FinitelyListed viewer)
    (py : Interpreter) (printer : Printer) (search : Search) (start : Str) :
    ∃ fuel paths,
      Worklist.run (nextOf py printer viewer search) fuel ⟨[start], []⟩ = some paths := by
  obtain ⟨listed, hlisted⟩ := hfinite
  have hclosed : ∀ path ∈ start :: listed.flatMap (nextOf py printer viewer search),
      ∀ next ∈ nextOf py printer viewer search path,
      next ∈ start :: listed.flatMap (nextOf py printer viewer search) := by
    intro path _ next hnext
    obtain ⟨data, hdata⟩ := listed_of_mem_nextOf hnext
    exact List.mem_cons_of_mem _ (List.mem_flatMap.mpr ⟨path, hlisted path data hdata, hnext⟩)
  refine Worklist.exists_run hclosed ?_
  exact fun path hpath => by simp [List.mem_singleton.mp hpath]

end Loop

section Directories

variable {py : Interpreter} {printer : Printer} {viewer : SchemeAnswers} {search : Search}
  {follows : Str → Child → Bool} {start : Str}

/-- What a listing of a path shows. -/
def Lists
    (py : Interpreter) (printer : Printer) (viewer : SchemeAnswers) (path : Str)
    (listing : Listing) : Prop :=
  ∃ data, viewer.listDirectory path = .ok data ∧ readListing py printer data = .ok listing

theorem Lists.unique
    {path : Str} {listing listing' : Listing}
    (h : Lists py printer viewer path listing) (h' : Lists py printer viewer path listing') :
    listing = listing' := by
  obtain ⟨data, hdata, hread⟩ := h
  obtain ⟨data', hdata', hread'⟩ := h'
  obtain rfl := Except.ok.inj (hdata.symm.trans hdata')
  exact Except.ok.inj (hread.symm.trans hread')

/-- The directories below the start: the names lead through directories that are
listed, and each of them is followed. -/
inductive Walked
    (py : Interpreter) (printer : Printer) (viewer : SchemeAnswers)
    (follows : Str → Child → Bool) (start : Str) :
    List Str → Prop
  | start : Walked py printer viewer follows start []
  | child
      {names : List Str} {listing : Listing} {child : Child}
      (hwalked : Walked py printer viewer follows start names)
      (hlists : Lists py printer viewer (pathBelow start names) listing)
      (hchild : child ∈ listing.children)
      (hfollows : follows (pathBelow start names) child = true) :
      Walked py printer viewer follows start (names ++ [child.name])

/-- All names in listings are names. -/
def NamesListed (py : Interpreter) (printer : Printer) (viewer : SchemeAnswers) : Prop :=
  ∀ path listing, Lists py printer viewer path listing →
    ∀ child ∈ listing.children, IsName child.name

/-- Tables are leaves of the tree: no listing shows a name both as a table and as
a directory. -/
def TablesAreLeaves (py : Interpreter) (printer : Printer) (viewer : SchemeAnswers) : Prop :=
  ∀ path listing, Lists py printer viewer path listing →
    ∀ table ∈ listing.children, ∀ other ∈ listing.children, table.name = other.name →
      table.schemeType = tableType → other.schemeType ∉ directoryTypes

theorem Walked.forall_names
    {isName : Str → Prop}
    (hlisted : ∀ path listing, Lists py printer viewer path listing →
      ∀ child ∈ listing.children, isName child.name)
    {names : List Str}
    (h : Walked py printer viewer follows start names) :
    ∀ name ∈ names, isName name := by
  induction h with
  | start => exact fun name hname => absurd hname List.not_mem_nil
  | child _ hlists hchild _ ih =>
      intro name hname
      rcases List.mem_append.mp hname with hname | hname
      · exact ih name hname
      · rw [List.mem_singleton.mp hname]
        exact hlisted _ _ hlists _ hchild

theorem Walked.isName
    (hlisted : NamesListed py printer viewer)
    {names : List Str}
    (h : Walked py printer viewer follows start names) :
    ∀ name ∈ names, IsName name :=
  h.forall_names hlisted

/-- The last step of the way to a directory. -/
theorem Walked.of_concat
    {names : List Str} {name : Str}
    (h : Walked py printer viewer follows start (names ++ [name])) :
    Walked py printer viewer follows start names ∧
      ∃ listing child, Lists py printer viewer (pathBelow start names) listing ∧
        child ∈ listing.children ∧ child.name = name ∧
        follows (pathBelow start names) child = true := by
  generalize hall : names ++ [name] = all at h
  cases h with
  | start => simp at hall
  | child hwalked hlists hchild hfollows =>
      obtain ⟨rfl, rfl⟩ := List.append_singleton_inj.mp hall
      exact ⟨hwalked, _, _, hlists, hchild, rfl, hfollows⟩

/-- The way to a directory passes through the directories above it. -/
theorem Walked.of_append
    {names more : List Str}
    (h : Walked py printer viewer follows start (names ++ more)) :
    Walked py printer viewer follows start names := by
  induction more using List.reverseRecOn with
  | nil => rwa [List.append_nil] at h
  | append_singleton more name ih =>
      rw [← List.append_assoc] at h
      exact ih h.of_concat.1

/-- The child is a directory of the walk, or a table that is searched. -/
theorem Search.directory_of_walks
    {path : Str} {child : Child}
    (h : search.walks path child = true) :
    child.schemeType ∈ directoryTypes := by
  simp only [Search.walks, Bool.and_eq_true, decide_eq_true_eq] at h
  exact h.1.1

theorem Search.table_of_descends
    {path : Str} {child : Child}
    (h : search.descends path child = true) :
    child.schemeType = tableType := by
  simp only [Search.descends, Bool.and_eq_true, beq_iff_eq] at h
  exact h.1.2

/-- A table that the walk meets and the nested discovery searches. -/
structure TableAt
    (py : Interpreter) (printer : Printer) (viewer : SchemeAnswers) (search : Search)
    (start : Str) (names : List Str) (name path : Str) : Prop where
  walked : Walked py printer viewer search.walks start names
  listed : ∃ listing, Lists py printer viewer (pathBelow start names) listing ∧
    ∃ child ∈ listing.children, child.name = name ∧
      search.descends (pathBelow start names) child = true
  path_eq : path = pathBelow start (names ++ [name])

theorem TableAt.isName
    (hlisted : NamesListed py printer viewer)
    {names : List Str} {name table : Str}
    (h : TableAt py printer viewer search start names name table) :
    ∀ n ∈ names ++ [name], IsName n := by
  intro n hn
  rcases List.mem_append.mp hn with hn | hn
  · exact h.walked.isName hlisted n hn
  · obtain ⟨listing, hlists, child, hchild, hname, -⟩ := h.listed
    rw [List.mem_singleton.mp hn, ← hname]
    exact hlisted _ _ hlists _ hchild

/-- A table of the walk is an owner. -/
theorem TableAt.isOwner
    (hlisted : NamesListed py printer viewer)
    {names : List Str} {name table : Str}
    (h : TableAt py printer viewer search start names name table) :
    IsOwner table := by
  unfold IsOwner
  rw [h.path_eq, rstrip_pathBelow start (h.isName hlisted), pathBelow, if_neg (by simp)]

/-- No path is below two tables. -/
theorem TableAt.apart
    (hlisted : NamesListed py printer viewer) (hleaves : TablesAreLeaves py printer viewer)
    {names names' : List Str} {name name' table table' path : Str}
    (h : TableAt py printer viewer search start names name table)
    (h' : TableAt py printer viewer search start names' name' table')
    (hbelow : Below table path) (hbelow' : Below table' path) :
    table = table' := by
  have hshorter : ∀ {names names' : List Str} {name name' table table' : Str},
      TableAt py printer viewer search start names name table →
      TableAt py printer viewer search start names' name' table' →
      table ++ ['/'] <+: table' ++ ['/'] → table = table' := by
    intro names names' name name' table table' h h' hprefix
    rcases List.prefix_concat_iff.mp hprefix with heq | hprefix
    · exact List.append_cancel_right heq
    · exfalso
      rw [h.path_eq, h'.path_eq, pathBelow, pathBelow, if_neg (by simp), if_neg (by simp),
        List.append_assoc, List.prefix_append_right_inj] at hprefix
      have hle := hprefix.length_le
      have hsplit := prefix_of_slashed_prefix (h.isName hlisted) (h'.isName hlisted) hprefix
      rcases List.prefix_concat_iff.mp hsplit with heq | ⟨more, rfl⟩
      · rw [heq, List.length_append, List.length_singleton] at hle
        omega
      · obtain ⟨-, listing, child, hlists, hchild, hname, hwalks⟩ :=
          h'.walked.of_append.of_concat
        obtain ⟨listing', hlists', other, hother, hname', hdescends⟩ := h.listed
        obtain rfl := hlists.unique hlists'
        exact hleaves _ _ hlists other hother child hchild (hname'.trans hname.symm)
          (Search.table_of_descends hdescends) (Search.directory_of_walks hwalks)
  rcases List.prefix_or_prefix_of_prefix hbelow hbelow' with hprefix | hprefix
  · exact hshorter h h' hprefix
  · exact (hshorter h' h hprefix).symm

/-- What the visit of a directory makes of its listing. -/
theorem visit_of_lists
    {path : Str} {listing : Listing}
    (h : Lists py printer viewer path listing) :
    visit py printer viewer search path = .ok (search.visitListing path listing) := by
  obtain ⟨data, hlist, hread⟩ := h
  unfold visit
  rw [hlist]
  exact bind_ok_iff.mpr ⟨listing, hread, rfl⟩

/-- A visit that adds something has read a listing. -/
theorem lists_of_visit
    {path : Str} {v : Visit}
    (h : visit py printer viewer search path = .ok v) :
    (∃ listing, Lists py printer viewer path listing ∧ v = search.visitListing path listing) ∨
      v.objects = [] ∧ v.nestedTables = [] ∧ v.next = [] := by
  unfold visit at h
  cases hlist : viewer.listDirectory path with
  | error exc =>
      rw [hlist] at h
      cases h
      exact Or.inr ⟨rfl, rfl, rfl⟩
  | ok data =>
      rw [hlist] at h
      obtain ⟨listing, hread, h⟩ := bind_ok_iff.mp h
      cases h
      exact Or.inl ⟨listing, ⟨data, hlist, hread⟩, rfl⟩

theorem mem_nextOf_iff
    {path next : Str} :
    next ∈ nextOf py printer viewer search path ↔
      ∃ listing, Lists py printer viewer path listing ∧
        ∃ child ∈ listing.children, search.walks path child = true ∧
          next = joinPath path child.name := by
  constructor
  · intro h
    unfold nextOf at h
    cases hvisit : visit py printer viewer search path with
    | error e => simp [hvisit] at h
    | ok v =>
        simp only [hvisit] at h
        rcases lists_of_visit hvisit with ⟨listing, hlists, rfl⟩ | ⟨-, -, hnone⟩
        · obtain ⟨child, hchild, rfl⟩ := List.mem_map.mp h
          obtain ⟨hmem, hwalks⟩ := List.mem_filter.mp hchild
          exact ⟨listing, hlists, child, hmem, hwalks, rfl⟩
        · rw [hnone] at h
          cases h
  · rintro ⟨listing, hlists, child, hchild, hwalks, rfl⟩
    unfold nextOf
    rw [visit_of_lists hlists]
    exact List.mem_map_of_mem (List.mem_filter.mpr ⟨hchild, hwalks⟩)

/-- The walk reaches the directories that are walked, and paths that it cannot
list. -/
theorem reaches_iff
    (hlisted : NamesListed py printer viewer)
    {path : Str} :
    Worklist.Reaches (nextOf py printer viewer search) start path ↔
      ∃ names, Walked py printer viewer search.walks start names ∧
        path = pathBelow start names := by
  constructor
  · intro h
    induction h with
    | refl => exact ⟨[], .start, rfl⟩
    | tail _ hnext ih =>
        obtain ⟨names, hwalked, rfl⟩ := ih
        obtain ⟨listing, hlists, child, hchild, hwalks, rfl⟩ := mem_nextOf_iff.mp hnext
        exact ⟨names ++ [child.name], .child hwalked hlists hchild hwalks,
          joinPath_pathBelow (hwalked.isName hlisted) child.name⟩
  · rintro ⟨names, hwalked, rfl⟩
    induction hwalked with
    | start => exact Relation.ReflTransGen.refl
    | child hwalked hlists hchild hwalks ih =>
        refine Relation.ReflTransGen.tail ih (mem_nextOf_iff.mpr ?_)
        exact ⟨_, hlists, _, hchild, hwalks,
          (joinPath_pathBelow (hwalked.isName hlisted) _).symm⟩

/-- The walk ends, whatever it finds: it gathers the visits of all that the start
reaches, unless one of these visits fails. -/
theorem collectObjects_spec
    (hfinite : FinitelyListed viewer)
    (py : Interpreter) (printer : Printer) (search : Search) (start : Str) :
    ∃ enough result,
      (∀ fuel, enough ≤ fuel →
        collectObjects py printer viewer search start fuel = some result) ∧
      ((∃ path e, visit py printer viewer search path = .error e ∧ result = .error e) ∨
        ∃ paths visits,
          (∀ path, path ∈ paths ↔
            Worklist.Reaches (nextOf py printer viewer search) start path) ∧
          Visited py printer viewer search paths visits ∧
          result = .ok (gathered [] paths visits).result) := by
  obtain ⟨enough, paths, hrun⟩ :=
    exists_run_of_finitelyListed hfinite py printer search start
  have hreach := ((Worklist.invariant_start _ start).of_run hrun).2
  have hcollect : ∀ {fuel : Nat} {result : Except BuiltinError CollectState},
      collectLoop py printer viewer search enough (gathered [start] [] []) = some result →
      enough ≤ fuel →
      collectObjects py printer viewer search start fuel =
        some (result.map CollectState.result) := by
    intro fuel result hloop hle
    exact congrArg _ (collectLoop_mono hloop hle)
  rcases collectLoop_of_run List.Forall₂.nil hrun with
    ⟨visits, hvisited, hloop⟩ | ⟨path, e, hvisit, hloop⟩
  · exact ⟨enough, _, fun fuel => hcollect hloop, Or.inr ⟨paths, visits, hreach, hvisited, rfl⟩⟩
  · exact ⟨enough, _, fun fuel => hcollect hloop, Or.inl ⟨path, e, hvisit, rfl⟩⟩

/-- What the visits gather is what the listings of the walked directories show. -/
theorem mem_visits_iff
    {β : Type} {part : Visit → List β}
    (hpart : ∀ v : Visit, v.objects = [] → v.nestedTables = [] → part v = [])
    (hlisted : NamesListed py printer viewer)
    {paths : List Str} {visits : List Visit}
    (hreach : ∀ path, path ∈ paths ↔
      Worklist.Reaches (nextOf py printer viewer search) start path)
    (hvisited : Visited py printer viewer search paths visits)
    {item : β} :
    item ∈ visits.flatMap part ↔
      ∃ names listing, Walked py printer viewer search.walks start names ∧
        Lists py printer viewer (pathBelow start names) listing ∧
        item ∈ part (search.visitListing (pathBelow start names) listing) := by
  rw [List.mem_flatMap]
  constructor
  · rintro ⟨v, hv, hitem⟩
    obtain ⟨path, hpath, hvisit⟩ := exists_of_forall₂_right hvisited hv
    obtain ⟨names, hwalked, rfl⟩ := (reaches_iff hlisted).mp ((hreach path).mp hpath)
    rcases lists_of_visit hvisit with ⟨listing, hlists, rfl⟩ | ⟨hobjects, htables, -⟩
    · exact ⟨names, listing, hwalked, hlists, hitem⟩
    · rw [hpart v hobjects htables] at hitem
      cases hitem
  · rintro ⟨names, listing, hwalked, hlists, hitem⟩
    have hpath := (hreach _).mpr ((reaches_iff hlisted).mpr ⟨names, hwalked, rfl⟩)
    obtain ⟨v, hv, hvisit⟩ := exists_of_forall₂_left hvisited hpath
    obtain rfl := Except.ok.inj ((visit_of_lists hlists).symm.trans hvisit)
    exact ⟨_, hv, hitem⟩

/-- The tables that are searched are tables of the walk. -/
theorem mem_nestedTables_iff
    (hlisted : NamesListed py printer viewer)
    {paths : List Str} {visits : List Visit}
    (hreach : ∀ path, path ∈ paths ↔
      Worklist.Reaches (nextOf py printer viewer search) start path)
    (hvisited : Visited py printer viewer search paths visits)
    {table : Str} :
    table ∈ (gathered [] paths visits).result.nestedTables ↔
      ∃ names name, TableAt py printer viewer search start names name table := by
  have hmem : table ∈ (gathered [] paths visits).result.nestedTables ↔
      table ∈ visits.flatMap Visit.nestedTables := by
    unfold CollectState.result gathered
    dsimp only
    rw [mem_sortedBy, List.mem_eraseDups]
  rw [hmem, mem_visits_iff (fun _ _ htables => htables) hlisted hreach hvisited]
  constructor
  · rintro ⟨names, listing, hwalked, hlists, htable⟩
    obtain ⟨child, hchild, rfl⟩ := List.mem_map.mp htable
    obtain ⟨hmem, hdescends⟩ := List.mem_filter.mp hchild
    exact ⟨names, child.name, hwalked, ⟨listing, hlists, child, hmem, rfl, hdescends⟩,
      joinPath_pathBelow (hwalked.isName hlisted) child.name⟩
  · rintro ⟨names, name, hat⟩
    obtain ⟨listing, hlists, child, hchild, rfl, hdescends⟩ := hat.listed
    refine ⟨names, listing, hat.walked, hlists, ?_⟩
    rw [hat.path_eq, ← joinPath_pathBelow (hat.walked.isName hlisted)]
    exact List.mem_map_of_mem (List.mem_filter.mpr ⟨hchild, hdescends⟩)

end Directories

end Tablets
end YdbSnippets
